import Mathlib
import RegisterCompiler.Proofs.Decoding

/-!
# What a decoder consumes

`Decode.Within d` says that a reading stays inside the code that it is given. Where it succeeds it takes bytes from the front, and
what follows these bytes does not change what it comes to; where it finds the code too short, it does so at the end of the code or
before; any other fault stays where there is more code. Readings that follow one another keep to it (`Within.bind`), so that an
instruction is decoded from the bytes it is said to have, whatever code it stands in (`decode_eq_of_ok`).
-/

namespace RegisterCompiler.X64

namespace Decode

/-- A reading that stays inside its code. -/
structure Within {α : Type} (d : Decode α) : Prop where
  /-- What is read are the first bytes, and they alone decide what the reading comes to. -/
  reads : ∀ rest taken a after, d.run ⟨rest, taken⟩ = .ok (a, after) →
    ∃ bytes, rest = bytes ++ after.rest ∧ after.taken = taken + bytes.length ∧ Reads d bytes a
  /-- Code that is too short ends where a byte is missing or before. -/
  ends : ∀ rest taken n, d.run ⟨rest, taken⟩ = .error (.endOfCode n) → n ≤ taken + rest.length
  /-- A fault that is not about missing code does not go away with more code. -/
  stays : ∀ rest taken fault more, (∀ n, fault ≠ .endOfCode n) → d.run ⟨rest, taken⟩ = .error fault →
    d.run ⟨rest ++ more, taken⟩ = .error fault

section

variable {α β : Type}

/-- What is returned at once takes no bytes. -/
theorem Within.pure (a : α) : Within (Pure.pure a : Decode α) where
  reads := by
    intro rest taken a' after h
    obtain ⟨rfl, rfl⟩ : a = a' ∧ Feed.mk rest taken = after := by
      have hpair : (a, Feed.mk rest taken) = (a', after) := Except.ok.inj h
      simpa using hpair
    exact ⟨[], rfl, rfl, .pure a⟩
  ends := nofun
  stays := nofun

/-- A fault that is not about missing code. -/
theorem Within.throw {fault : DecodeFault} (h : ∀ n, fault ≠ .endOfCode n) : Within (throw fault : Decode α) where
  reads := nofun
  ends := by
    intro rest taken n hrun
    exact absurd (Except.error.inj hrun) (h n)
  stays := fun _ _ _ _ _ hrun => hrun

/-- Readings one after the other. -/
theorem Within.bind {d : Decode α} {f : α → Decode β} (h : Within d) (hf : ∀ a, Within (f a)) : Within (d >>= f) where
  reads := by
    intro rest taken b after hrun
    rw [StateT.run_bind] at hrun
    rcases hd : d.run ⟨rest, taken⟩ with fault | ⟨a, middle⟩
    · rw [hd] at hrun
      cases hrun
    · rw [hd] at hrun
      obtain ⟨bytes, rfl, hmiddle, hreads⟩ := h.reads rest taken a middle hd
      obtain ⟨bytes', hrest, hafter, hreads'⟩ := (hf a).reads middle.rest middle.taken b after hrun
      refine ⟨bytes ++ bytes', ?_, ?_, hreads.bind f hreads'⟩
      · rw [hrest, List.append_assoc]
      · rw [hafter, hmiddle, List.length_append, Nat.add_assoc]
  ends := by
    intro rest taken n hrun
    rw [StateT.run_bind] at hrun
    rcases hd : d.run ⟨rest, taken⟩ with fault | ⟨a, middle⟩
    · rw [hd] at hrun
      obtain rfl : fault = .endOfCode n := Except.error.inj hrun
      exact h.ends rest taken n hd
    · rw [hd] at hrun
      obtain ⟨bytes, rfl, hmiddle, -⟩ := h.reads rest taken a middle hd
      have hle := (hf a).ends middle.rest middle.taken n hrun
      rw [List.length_append]
      omega
  stays := by
    intro rest taken fault more hfault hrun
    rw [StateT.run_bind] at hrun ⊢
    rcases hd : d.run ⟨rest, taken⟩ with found | ⟨a, middle⟩
    · rw [hd] at hrun
      obtain rfl : found = fault := Except.error.inj hrun
      rw [h.stays rest taken found more hfault hd]
      rfl
    · -- the first reading comes to the same in front of more code, and the second one has that code behind its own
      rw [hd] at hrun
      obtain ⟨bytes, rfl, hmiddle, hreads⟩ := h.reads rest taken a middle hd
      rw [List.append_assoc, hreads (middle.rest ++ more) taken, ← hmiddle]
      exact (hf a).stays middle.rest middle.taken fault more hfault hrun

/-- A reading whose last step only makes a value of what was read. -/
theorem Within.map {d : Decode α} (f : α → β) (h : Within d) : Within (do return f (← d)) := h.bind fun a => .pure (f a)

/-- Either way of a choice takes bytes off the front. -/
theorem Within.ite {c : Prop} [Decidable c] {d e : Decode α} (hd : Within d) (he : Within e) : Within (if c then d else e) := by
  split
  · exact hd
  · exact he

end

/-! ## Bytes and words -/

/-- A byte is taken off the front. -/
theorem within_byte : Within byte where
  reads := by
    intro rest taken a after h
    cases rest with
    | nil => cases h
    | cons b rest =>
      obtain ⟨rfl, rfl⟩ : b = a ∧ Feed.mk rest (taken + 1) = after := by
        have hpair : (b, Feed.mk rest (taken + 1)) = (a, after) := Except.ok.inj h
        simpa using hpair
      exact ⟨[b], rfl, rfl, reads_byte b⟩
  ends := by
    intro rest taken n h
    cases rest with
    | nil =>
      obtain rfl : taken = n := DecodeFault.endOfCode.inj (Except.error.inj h)
      exact Nat.le_add_right _ _
    | cons b rest => cases h
  stays := by
    intro rest taken fault more hfault h
    cases rest with
    | nil => exact absurd (Except.error.inj h).symm (hfault taken)
    | cons b rest => cases h

/-- A reading that takes a fixed number of bytes at once, or finds the code too short where it stands. -/
theorem Within.of_block {α : Type} {d : Decode α} (size : Nat) (value : List UInt8 → α)
    (hshort : ∀ rest taken, rest.length < size → d.run ⟨rest, taken⟩ = .error (.endOfCode taken))
    (hlong : ∀ bytes rest taken, bytes.length = size →
      d.run ⟨bytes ++ rest, taken⟩ = .ok (value bytes, ⟨rest, taken + size⟩)) : Within d := by
  have hcases : ∀ rest : List UInt8, rest.length < size ∨ ∃ bytes behind, bytes.length = size ∧ rest = bytes ++ behind := by
    intro rest
    rcases Nat.lt_or_ge rest.length size with h | h
    · exact Or.inl h
    · exact Or.inr ⟨rest.take size, rest.drop size, List.length_take_of_le h, (List.take_append_drop size rest).symm⟩
  constructor
  · intro rest taken a after h
    rcases hcases rest with hlt | ⟨bytes, behind, hbytes, rfl⟩
    · rw [hshort rest taken hlt] at h
      cases h
    · rw [hlong bytes behind taken hbytes] at h
      obtain ⟨rfl, rfl⟩ : value bytes = a ∧ Feed.mk behind (taken + size) = after := by simpa using Except.ok.inj h
      refine ⟨bytes, rfl, by rw [hbytes], fun rest taken => ?_⟩
      rw [hlong bytes rest taken hbytes, hbytes]
  · intro rest taken n h
    rcases hcases rest with hlt | ⟨bytes, behind, hbytes, rfl⟩
    · rw [hshort rest taken hlt] at h
      obtain rfl : taken = n := DecodeFault.endOfCode.inj (Except.error.inj h)
      exact Nat.le_add_right _ _
    · rw [hlong bytes behind taken hbytes] at h
      cases h
  · intro rest taken fault more hfault h
    rcases hcases rest with hlt | ⟨bytes, behind, hbytes, rfl⟩
    · rw [hshort rest taken hlt] at h
      exact absurd (Except.error.inj h).symm (hfault taken)
    · rw [hlong bytes behind taken hbytes] at h
      cases h

/-- So is a 32-bit word. -/
theorem within_word : Within word := by
  refine .of_block 4 (fun bytes => (bytes.getD 0 0).toUInt32 ||| (bytes.getD 1 0).toUInt32 <<< 8 |||
    (bytes.getD 2 0).toUInt32 <<< 16 ||| (bytes.getD 3 0).toUInt32 <<< 24) ?_ ?_
  · intro rest taken h
    match rest, h with
    | [], _ => rfl
    | [_], _ => rfl
    | [_, _], _ => rfl
    | [_, _, _], _ => rfl
  · intro bytes rest taken h
    match bytes, h with
    | [a, b, c, d], _ => rfl

/-- So is a 64-bit word. -/
theorem within_long : Within long := by
  refine .of_block 8 (fun bytes => (bytes.getD 0 0).toUInt64 ||| (bytes.getD 1 0).toUInt64 <<< 8 |||
    (bytes.getD 2 0).toUInt64 <<< 16 ||| (bytes.getD 3 0).toUInt64 <<< 24 ||| (bytes.getD 4 0).toUInt64 <<< 32 |||
    (bytes.getD 5 0).toUInt64 <<< 40 ||| (bytes.getD 6 0).toUInt64 <<< 48 ||| (bytes.getD 7 0).toUInt64 <<< 56) ?_ ?_
  · intro rest taken h
    match rest, h with
    | [], _ => rfl
    | [_], _ => rfl
    | [_, _], _ => rfl
    | [_, _, _], _ => rfl
    | [_, _, _, _], _ => rfl
    | [_, _, _, _, _], _ => rfl
    | [_, _, _, _, _, _], _ => rfl
    | [_, _, _, _, _, _, _], _ => rfl
  · intro bytes rest taken h
    match bytes, h with
    | [a, b, c, d, e, g, i, j], _ => rfl

/-- So is a signed 32-bit number. -/
theorem within_int32 : Within int32 := within_word.map _

/-- So is a signed byte. -/
theorem within_int8 : Within int8 := within_byte.map _

/-- So is the byte of an addressing mode. -/
theorem within_operands : Within operands := within_byte.map _

/-! ## Operands -/

/-- Refusing an addressing mode takes no bytes. -/
theorem within_unsupportedAddressing {α : Type} : Within (throw .unsupportedAddressing : Decode α) := .throw nofun

/-- Refusing an opcode takes no bytes. -/
theorem within_unsupportedOpcode {α : Type} (opcode : UInt8) : Within (throw (.unsupportedOpcode opcode) : Decode α) := .throw nofun

/-- Two registers are read off the front. -/
theorem within_twoRegisters (rex : Rex) : Within (twoRegisters rex) := by
  refine within_operands.bind fun o => ?_
  exact .ite (.pure _) within_unsupportedAddressing

/-- An opcode extension and a register are read off the front. -/
theorem within_extended (rex : Rex) : Within (extended rex) := by
  refine within_operands.bind fun o => ?_
  exact .ite (.pure _) within_unsupportedAddressing

/-- An operand on the stack is read off the front. -/
theorem within_stackOperand (o : Operands) : Within (stackOperand o) := by
  refine .ite (within_byte.bind fun base => ?_) within_unsupportedAddressing
  exact .ite (.ite within_int8 within_int32) within_unsupportedAddressing

/-! ## Instructions -/

/-- A move is read off the front. -/
theorem within_move (rex : Rex) (toRegister : Bool) : Within (move rex toRegister) := by
  refine within_operands.bind fun o => .ite (.pure _) ?_
  exact (within_stackOperand o).bind fun displacement => .pure _

/-- So is a move of an immediate. -/
theorem within_moveImmediate (rex : Rex) (dest : Reg) : Within (moveImmediate rex dest) :=
  .ite (within_long.map _) (within_int32.map _)

/-- So is an address. -/
theorem within_address (rex : Rex) : Within (address rex) := by
  refine within_operands.bind fun o => ?_
  exact .ite (within_int32.map _) within_unsupportedAddressing

/-- So is an operation on an immediate, as far as the immediate is. -/
theorem within_aluImmediate (rex : Rex) {immediate : Decode Int32} (h : Within immediate) : Within (aluImmediate rex immediate) := by
  refine (within_extended rex).bind fun (extension, reg) => ?_
  cases hop : Alu.ofExtension? extension with
  | none =>
    simp only [hop]
    exact within_unsupportedAddressing
  | some op =>
    simp only [hop]
    exact h.map _

/-- So is a multiplication by an immediate, as far as the immediate is. -/
theorem within_multiplyImmediate (rex : Rex) {immediate : Decode Int32} (h : Within immediate) :
    Within (multiplyImmediate rex immediate) :=
  (within_twoRegisters rex).bind fun _ => h.map _

/-- So is an instruction on one register. -/
theorem within_oneRegister (rex : Rex) (number : UInt8) (i : Reg → Instruction) : Within (oneRegister rex number i) :=
  (within_extended rex).bind fun _ => .ite (.pure _) within_unsupportedAddressing

/-- So is what follows the first byte of a long opcode. -/
theorem within_second (rex : Rex) : Within (second rex) := by
  refine within_byte.bind fun opcode => .ite (within_int32.map _) (.ite ?_ (within_unsupportedOpcode opcode))
  exact (within_twoRegisters rex).bind fun _ => .pure _

/-- So is an operation on two registers. -/
theorem within_alu (rex : Rex) (opcode : UInt8) : Within (alu rex opcode) := by
  unfold alu
  cases Alu.ofOpcode? opcode with
  | none => exact within_unsupportedOpcode opcode
  | some op => exact (within_twoRegisters rex).bind fun _ => .pure _

/-- So is what follows an opcode. -/
theorem within_opcode (rex : Rex) (op : UInt8) : Within (opcode rex op) := by
  refine .ite (.pure _) <| .ite (.pure _) <| .ite (.pure _) <| .ite (.pure _) <| .ite (.pure _) ?_
  refine .ite (within_moveImmediate rex _) <| .ite (within_move rex false) <| .ite (within_move rex true) ?_
  refine .ite (within_address rex) <| .ite (within_aluImmediate rex within_int32) <| .ite (within_aluImmediate rex within_int8) ?_
  refine .ite (within_multiplyImmediate rex within_int32) <| .ite (within_multiplyImmediate rex within_int8) ?_
  refine .ite (within_oneRegister rex 7 _) <| .ite (within_oneRegister rex 2 _) ?_
  exact .ite (within_int32.map _) <| .ite (within_int32.map _) <| .ite (within_second rex) (within_alu rex op)

/-- An instruction is read off the front. -/
theorem within_instruction : Within instruction := by
  refine within_byte.bind fun first => ?_
  exact .ite (within_byte.bind fun op => within_opcode _ op) (within_opcode _ first)

end Decode

/-! ## Decoded instructions -/

/-- A decoded instruction has at least one byte, the code has all of its bytes, and they decode to it whatever follows them. -/
theorem decode_eq_of_ok {code : List UInt8} {i : Instruction} {size : Nat} (h : decode code = .ok (i, size)) :
    0 < size ∧ size ≤ code.length ∧ ∀ rest, decode (code.take size ++ rest) = .ok (i, size) := by
  unfold decode at h
  rcases hrun : Decode.instruction.run ⟨code, 0⟩ with fault | ⟨j, after⟩
  · rw [hrun] at h
    cases h
  · rw [hrun] at h
    obtain ⟨rfl, rfl⟩ : j = i ∧ after.taken = size := by simpa using Except.ok.inj h
    obtain ⟨bytes, rfl, htaken, hreads⟩ := Decode.within_instruction.reads code 0 j after hrun
    rw [Nat.zero_add] at htaken
    refine ⟨?_, ?_, fun rest => ?_⟩
    · -- without a byte there is not even an opcode
      rw [htaken, List.length_pos_iff]
      rintro rfl
      cases hreads [] 0
    · rw [htaken, List.length_append]
      exact Nat.le_add_right _ _
    · rw [htaken, List.take_left]
      unfold decode
      rw [hreads rest 0, Nat.zero_add]
      rfl

/-- Code that is too short to decode is so at its end or before. -/
theorem le_length_of_decode_eq_error {code : List UInt8} {n : Nat} (h : decode code = .error (.endOfCode n)) :
    n ≤ code.length := by
  unfold decode at h
  rcases hrun : Decode.instruction.run ⟨code, 0⟩ with fault | ⟨j, after⟩
  · rw [hrun] at h
    have hend := Decode.within_instruction.ends code 0 n (hrun.trans (congrArg Except.error (Except.error.inj h)))
    rwa [Nat.zero_add] at hend
  · rw [hrun] at h
    cases h

/-- Code that is refused for another reason is refused for it whatever follows. -/
theorem decode_append_of_error {code : List UInt8} {fault : DecodeFault} (hfault : ∀ n, fault ≠ .endOfCode n)
    (h : decode code = .error fault) (rest : List UInt8) : decode (code ++ rest) = .error fault := by
  unfold decode at h ⊢
  rcases hrun : Decode.instruction.run ⟨code, 0⟩ with found | ⟨j, after⟩
  · rw [hrun] at h
    obtain rfl : found = fault := Except.error.inj h
    rw [Decode.within_instruction.stays code 0 found rest hfault hrun]
    rfl
  · rw [hrun] at h
    cases h

/-- An instruction that misses bytes at its end is never taken for another one, nor for something that is none: the code is found
too short. -/
theorem decode_take_encode (i : Instruction) {k : Nat} (hk : k < i.size) :
    ∃ n ≤ k, decode (i.encode.take k) = .error (.endOfCode n) := by
  have hlength : (i.encode.take k).length = k := List.length_take_of_le hk.le
  have hwhole : decode i.encode = .ok (i, i.size) := by simpa using decode_encode_append i []
  rcases hdecode : decode (i.encode.take k) with fault | ⟨j, size⟩
  · by_cases hfault : ∃ n, fault = .endOfCode n
    · obtain ⟨n, rfl⟩ := hfault
      exact ⟨n, hlength ▸ le_length_of_decode_eq_error hdecode, rfl⟩
    · -- any other fault would also be one of the whole instruction
      have hsame := decode_append_of_error (fun n hn => hfault ⟨n, hn⟩) hdecode (i.encode.drop k)
      rw [List.take_append_drop, hwhole] at hsame
      cases hsame
  · -- and an instruction found in the front would be the first one of the whole
    obtain ⟨-, hsize, hreads⟩ := decode_eq_of_ok hdecode
    rw [hlength] at hsize
    have hsame := hreads (i.encode.drop size)
    rw [List.take_take, min_eq_left hsize, List.take_append_drop, hwhole] at hsame
    obtain ⟨-, rfl⟩ := Prod.mk.inj (Except.ok.inj hsame)
    omega

end RegisterCompiler.X64
