import Mathlib
import RegisterCompiler.Machine.Step
import RegisterCompiler.Proofs.Word

/-!
# Decoding what was encoded

`Decode.Reads d bytes a` says that a reading takes exactly the given bytes, whatever follows them, and comes to `a`. Readings that
follow one another read their bytes one after the other (`Reads.bind`), so that an instruction is read back from its bytes field
by field (`reads_instruction`).
-/

namespace RegisterCompiler.X64

/-! ## Words and their bytes -/

/-- Four bytes put together, the lowest first, are the word that they were taken from. -/
theorem or_wordBytes (w : UInt32) :
    w.toUInt8.toUInt32 ||| (w >>> 8).toUInt8.toUInt32 <<< 8 ||| (w >>> 16).toUInt8.toUInt32 <<< 16 |||
      (w >>> 24).toUInt8.toUInt32 <<< 24 = w := by
  have h8 : ((8 : UInt32).toBitVec % 32).toNat = 8 := by decide
  have h16 : ((16 : UInt32).toBitVec % 32).toNat = 16 := by decide
  have h24 : ((24 : UInt32).toBitVec % 32).toNat = 24 := by decide
  refine UInt32.toBitVec_inj.1 (BitVec.eq_of_getLsbD_eq fun i hi => ?_)
  simp only [UInt32.toBitVec_or, UInt32.toBitVec_shiftLeft, UInt32.toBitVec_shiftRight, UInt8.toBitVec_toUInt32,
    UInt32.toBitVec_toUInt8, BitVec.getLsbD_or, BitVec.getLsbD_shiftLeft, BitVec.getLsbD_setWidth, BitVec.getLsbD_ushiftRight,
    BitVec.shiftLeft_eq', BitVec.ushiftRight_eq', h8, h16, h24]
  grind

/-- So are eight bytes. -/
theorem or_longBytes (w : UInt64) :
    w.toUInt8.toUInt64 ||| (w >>> 8).toUInt8.toUInt64 <<< 8 ||| (w >>> 16).toUInt8.toUInt64 <<< 16 |||
      (w >>> 24).toUInt8.toUInt64 <<< 24 ||| (w >>> 32).toUInt8.toUInt64 <<< 32 ||| (w >>> 40).toUInt8.toUInt64 <<< 40 |||
      (w >>> 48).toUInt8.toUInt64 <<< 48 ||| (w >>> 56).toUInt8.toUInt64 <<< 56 = w := by
  refine UInt64.toBitVec_inj.1 (BitVec.eq_of_getLsbD_eq fun i hi => ?_)
  simp only [UInt64.toBitVec_or, UInt64.toBitVec_shiftLeft, UInt64.toBitVec_shiftRight, UInt8.toBitVec_toUInt64,
    UInt64.toBitVec_toUInt8, BitVec.getLsbD_or, BitVec.getLsbD_shiftLeft, BitVec.getLsbD_setWidth, BitVec.getLsbD_ushiftRight,
    BitVec.shiftLeft_eq', BitVec.ushiftRight_eq', byteShifts]
  grind

/-! ## Registers and addressing bytes -/

/-- A prefix byte is recognised, and its three bits are read back. -/
theorem Rex.ofByte_rexByte (wide reg base : Bool) :
    isRex (rexByte wide reg base) = true ∧ Rex.ofByte (rexByte wide reg base) = ⟨wide, reg, base⟩ := by
  cases wide <;> cases reg <;> cases base <;> decide

/-- The parts of an addressing byte are the numbers it was made of. -/
theorem Operands.ofByte_modRM {mode reg rm : UInt8} (hmode : mode < 4) (hreg : reg < 8) (hrm : rm < 8) :
    Operands.ofByte (modRM mode reg rm) = ⟨mode, reg, rm⟩ := by
  have hall : ∀ (m : Fin 4) (r q : Fin 8), Operands.ofByte (modRM (UInt8.ofNat m) (UInt8.ofNat r) (UInt8.ofNat q)) =
      ⟨UInt8.ofNat m, UInt8.ofNat r, UInt8.ofNat q⟩ := by decide +kernel
  have := hall ⟨mode.toNat, hmode⟩ ⟨reg.toNat, hreg⟩ ⟨rm.toNat, hrm⟩
  simpa only [UInt8.ofNat_toNat] using this

/-- The low part of a register's number has three bits. -/
theorem Reg.low_lt (r : Reg) : r.low < 8 := by cases r <;> decide

/-- An operation is the one with its opcode. -/
theorem Alu.ofOpcode?_opcode (op : Alu) : Alu.ofOpcode? op.opcode = some op := by cases op <;> rfl

/-- An operation is the one with its opcode extension. -/
theorem Alu.ofExtension?_extension (op : Alu) : Alu.ofExtension? op.extension = some op := by cases op <;> rfl

namespace Decode

/-- A reading takes exactly the given bytes and comes to a value. -/
def Reads {α : Type} (d : Decode α) (bytes : List UInt8) (a : α) : Prop :=
  ∀ rest taken, d.run ⟨bytes ++ rest, taken⟩ = .ok (a, ⟨rest, taken + bytes.length⟩)

section

variable {α β : Type}

/-- What is returned at once reads nothing. -/
theorem Reads.pure (a : α) : Reads (Pure.pure a) [] a := fun _ _ => rfl

/-- Readings one after the other. -/
theorem Reads.bind {d : Decode α} (f : α → Decode β) {bytes bytes' : List UInt8} {a : α} {b : β} (h : Reads d bytes a)
    (hf : Reads (f a) bytes' b) : Reads (d >>= f) (bytes ++ bytes') b := by
  intro rest taken
  have hd := h (bytes' ++ rest) taken
  have hb := hf rest (taken + bytes.length)
  rw [List.append_assoc, List.length_append, ← Nat.add_assoc, StateT.run_bind, hd]
  exact hb

/-- A reading whose last step only makes a value of what was read. -/
theorem Reads.map {d : Decode α} (f : α → β) {bytes : List UInt8} {a : α} (h : Reads d bytes a) :
    Reads (do return f (← d)) bytes (f a) := by
  have := h.bind (fun a => Pure.pure (f a)) (.pure (f a))
  rwa [List.append_nil] at this

end

/-- A byte reads itself. -/
theorem reads_byte (b : UInt8) : Reads byte [b] b := fun _ _ => rfl

/-- The bytes of a 32-bit number are read as the number. -/
theorem reads_int32 (n : Int32) : Reads int32 (int32Bytes n) n := by
  have hword : Reads word (int32Bytes n) n.toUInt32 := by
    intro rest taken
    show Except.ok (_, _) = _
    rw [or_wordBytes]
    rfl
  exact hword.map UInt32.toInt32

/-- The bytes of a 64-bit number are read as the number. -/
theorem reads_long (n : Int64) : Reads (do return (← long).toInt64) (longBytes n.toUInt64) n := by
  have hlong : Reads long (longBytes n.toUInt64) n.toUInt64 := by
    intro rest taken
    show Except.ok (_, _) = _
    rw [or_longBytes]
    rfl
  exact hlong.map UInt64.toInt64

/-- A number that fits eight bits is read from its low byte, with its sign. -/
theorem reads_int8 {n : Int32} (h : fitsByte n = true) : Reads int8 [lowByte n] n := by
  have hn : (lowByte n).toInt8.toInt32 = n := by simpa [fitsByte, lowByte] using h
  have hbyte := (reads_byte (lowByte n)).map fun b => b.toInt8.toInt32
  rwa [hn] at hbyte

/-! ## Operands -/

/-- A mode and two low register numbers are read from the byte that they were put into. -/
theorem reads_operands {mode reg rm : UInt8} (hmode : mode < 4) (hreg : reg < 8) (hrm : rm < 8) :
    Reads operands [modRM mode reg rm] ⟨mode, reg, rm⟩ := by
  have := (reads_byte (modRM mode reg rm)).map Operands.ofByte
  rwa [Operands.ofByte_modRM hmode hreg hrm] at this

/-- Two registers are read from their high bits in the prefix and their low bits behind. -/
theorem reads_twoRegisters (wide : Bool) (r q : Reg) :
    Reads (twoRegisters ⟨wide, r.high, q.high⟩) [modRM 3 r.low q.low] (r, q) := by
  refine (reads_operands (by decide) r.low_lt q.low_lt).bind _ ?_
  rw [if_pos rfl, Reg.ofParts_parts, Reg.ofParts_parts]
  exact .pure (r, q)

/-- An opcode extension is read beside a register. -/
theorem reads_extended (wide reg : Bool) {number : UInt8} (hnumber : number < 8) (r : Reg) :
    Reads (extended ⟨wide, reg, r.high⟩) [modRM 3 number r.low] (number, r) := by
  refine (reads_operands (by decide) hnumber r.low_lt).bind _ ?_
  rw [if_pos rfl, Reg.ofParts_parts]
  exact .pure (number, r)

/-- A move from or to the stack, behind its opcode. -/
theorem reads_move_stack (toRegister wide base : Bool) (r : Reg) (d : Int32) :
    Reads (move ⟨wide, r.high, base⟩ toRegister) (X64.stackOperand r d) (if toRegister then .load r d else .store d r) := by
  have hmove : ∀ {mode : UInt8} {bytes : List UInt8}, mode < 4 → mode ≠ 3 →
      Reads (stackOperand ⟨mode, r.low, 4⟩) bytes d →
      Reads (move ⟨wide, r.high, base⟩ toRegister) (modRM mode r.low 4 :: bytes)
        (if toRegister then .load r d else .store d r) := by
    intro mode bytes hmode hne hstack
    refine (reads_operands hmode r.low_lt (by decide)).bind _ ?_
    rw [if_neg hne, Reg.ofParts_parts]
    have := hstack.map fun d => if toRegister then Instruction.load r d else .store d r
    exact this
  unfold X64.stackOperand
  split
  · rename_i hshort
    refine hmove (by decide) (by decide) ?_
    unfold stackOperand
    rw [if_pos ⟨rfl, Or.inl rfl⟩]
    refine (reads_byte stackBase).bind _ ?_
    rw [if_pos rfl, if_pos rfl]
    exact reads_int8 hshort
  · refine hmove (by decide) (by decide) ?_
    unfold stackOperand
    rw [if_pos ⟨rfl, Or.inr rfl⟩]
    refine (reads_byte stackBase).bind _ ?_
    rw [if_pos rfl, if_neg (fun h : (2 : UInt8) = 1 => absurd h (by decide))]
    exact reads_int32 d

/-! ## Instructions -/

/-- An instruction behind a prefix. -/
theorem reads_prefixed {wide reg base : Bool} {op : UInt8} {bytes : List UInt8} {i : Instruction}
    (h : Reads (opcode ⟨wide, reg, base⟩ op) bytes i) : Reads instruction (rexByte wide reg base :: op :: bytes) i := by
  refine (reads_byte _).bind _ ?_
  rw [(Rex.ofByte_rexByte wide reg base).2, if_pos (Rex.ofByte_rexByte wide reg base).1]
  exact (reads_byte op).bind _ h

/-- An instruction without a prefix. -/
theorem reads_bare {op : UInt8} {bytes : List UInt8} {i : Instruction} (hop : isRex op = false)
    (h : Reads (opcode Rex.none op) bytes i) : Reads instruction (op :: bytes) i := by
  refine (reads_byte _).bind _ ?_
  rw [if_neg (by rw [hop]; exact Bool.false_ne_true)]
  exact h

/-- An instruction whose prefix only extends a register number. -/
theorem reads_short {base : Bool} {op : UInt8} {bytes : List UInt8} {i : Instruction} (hop : isRex op = false)
    (h : Reads (opcode ⟨false, false, base⟩ op) bytes i) : Reads instruction (shortRex base ++ op :: bytes) i := by
  cases base with
  | false => exact reads_bare hop h
  | true => exact reads_prefixed h

/-- An instruction is read back from its bytes. -/
theorem reads_instruction (i : Instruction) : Reads instruction i.encode i := by
  cases i with
  | nop => exact reads_bare rfl (.pure _)
  | ret => exact reads_bare rfl (.pure _)
  | cqo => exact reads_prefixed (.pure _)
  | push r =>
    have hop : isRex (0x50 + r.low) = false ∧ opcode ⟨false, false, r.high⟩ (0x50 + r.low) = pure (.push r) := by
      cases r <;> exact ⟨rfl, rfl⟩
    exact reads_short hop.1 (hop.2 ▸ .pure _)
  | pop r =>
    have hop : isRex (0x58 + r.low) = false ∧ opcode ⟨false, false, r.high⟩ (0x58 + r.low) = pure (.pop r) := by
      cases r <;> exact ⟨rfl, rfl⟩
    exact reads_short hop.1 (hop.2 ▸ .pure _)
  | callRegister r => exact reads_short rfl ((reads_extended false false (by decide) r).bind _ (.pure _))
  | call d => exact reads_bare rfl ((reads_int32 d).map _)
  | jump d => exact reads_bare rfl ((reads_int32 d).map _)
  | branch c d =>
    -- the number of the condition is the low half of the second byte
    have hnumber : (0x80 ||| UInt8.ofNat c.number.val) &&& 0xF0 = 0x80 ∧
        ConditionCode.ofNumber ⟨(0x80 ||| UInt8.ofNat c.number.val).toNat % 16, by omega⟩ = c := by
      cases c <;> exact ⟨rfl, rfl⟩
    have hsecond : Reads (second Rex.none) ((0x80 ||| UInt8.ofNat c.number.val) :: int32Bytes d) (.branch c d) := by
      refine (reads_byte _).bind _ ?_
      rw [if_pos hnumber.1, hnumber.2]
      exact (reads_int32 d).map _
    exact reads_bare rfl hsecond
  | move dest source =>
    have hmove : Reads (move ⟨true, source.high, dest.high⟩ false) [modRM 3 source.low dest.low] (.move dest source) := by
      refine (reads_operands (by decide) source.low_lt dest.low_lt).bind _ ?_
      rw [if_pos rfl, Reg.ofParts_parts, Reg.ofParts_parts]
      exact .pure _
    exact reads_prefixed hmove
  | moveImmediate dest imm =>
    have hop : opcode ⟨true, false, dest.high⟩ (0xB8 + dest.low) = moveImmediate ⟨true, false, dest.high⟩ dest := by
      cases dest <;> rfl
    refine reads_prefixed ?_
    rw [hop]
    exact (reads_long imm).map (Instruction.moveImmediate dest)
  | store d source => exact reads_prefixed (reads_move_stack false true false source d)
  | load dest d => exact reads_prefixed (reads_move_stack true true false dest d)
  | address dest d =>
    have haddress : Reads (address ⟨true, dest.high, false⟩) (modRM 0 dest.low 5 :: int32Bytes d) (.address dest d) := by
      refine (reads_operands (by decide) dest.low_lt (by decide)).bind _ ?_
      rw [if_pos ⟨rfl, rfl⟩, Reg.ofParts_parts]
      exact (reads_int32 d).map _
    exact reads_prefixed haddress
  | alu op dest source =>
    have hop : opcode ⟨true, source.high, dest.high⟩ op.opcode = alu ⟨true, source.high, dest.high⟩ op.opcode := by
      cases op <;> rfl
    refine reads_prefixed ?_
    rw [hop, alu, Alu.ofOpcode?_opcode]
    exact (reads_twoRegisters true source dest).bind _ (.pure _)
  | aluImmediate op dest imm =>
    -- both widths of the immediate stand behind the same bytes, so only its own reading differs
    have hextended : ∀ {immediate : Decode Int32} {bytes : List UInt8}, Reads immediate bytes imm →
        Reads (aluImmediate ⟨true, false, dest.high⟩ immediate) (modRM 3 op.extension dest.low :: bytes)
          (.aluImmediate op dest imm) := by
      intro immediate bytes himmediate
      refine (reads_extended true false (by cases op <;> decide) dest).bind _ ?_
      simp only [Alu.ofExtension?_extension]
      exact himmediate.map _
    rw [Instruction.encode]
    split
    · rename_i hshort
      exact reads_prefixed (hextended (reads_int8 hshort))
    · exact reads_prefixed (hextended (reads_int32 imm))
  | multiply dest source =>
    have hsecond : Reads (second ⟨true, dest.high, source.high⟩) [0xAF, modRM 3 dest.low source.low] (.multiply dest source) := by
      refine (reads_byte _).bind _ ?_
      rw [if_neg (by decide), if_pos rfl]
      exact (reads_twoRegisters true dest source).bind _ (.pure _)
    exact reads_prefixed hsecond
  | multiplyImmediate dest source imm =>
    have htwo : ∀ {immediate : Decode Int32} {bytes : List UInt8}, Reads immediate bytes imm →
        Reads (multiplyImmediate ⟨true, dest.high, source.high⟩ immediate) (modRM 3 dest.low source.low :: bytes)
          (.multiplyImmediate dest source imm) :=
      fun himmediate => (reads_twoRegisters true dest source).bind _ (himmediate.map _)
    rw [Instruction.encode]
    split
    · rename_i hshort
      exact reads_prefixed (htwo (reads_int8 hshort))
    · exact reads_prefixed (htwo (reads_int32 imm))
  | divide divisor =>
    have hone : Reads (oneRegister ⟨true, false, divisor.high⟩ 7 .divide) [modRM 3 7 divisor.low] (.divide divisor) := by
      refine (reads_extended true false (by decide) divisor).bind _ ?_
      simp only [if_true]
      exact .pure _
    exact reads_prefixed hone

end Decode

/-- Code that begins with the bytes of an instruction begins with the instruction. -/
theorem decode_encode_append (i : Instruction) (rest : List UInt8) : decode (i.encode ++ rest) = .ok (i, i.size) := by
  unfold decode
  rw [Decode.reads_instruction i rest 0, Nat.zero_add]
  rfl

end RegisterCompiler.X64

namespace RegisterCompiler.Machine

/-- The processor takes code that begins with the bytes of an instruction for this instruction. -/
theorem fetch?_encode_append (i : X64.Instruction) (rest : List UInt8) : fetch? (i.encode ++ rest) = some (i, i.size) := by
  unfold fetch?
  rw [X64.decode_encode_append]
  simp [X64.Instruction.size]

end RegisterCompiler.Machine
