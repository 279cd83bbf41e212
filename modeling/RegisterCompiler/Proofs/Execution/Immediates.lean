import RegisterCompiler.Proofs.Execution.Operations
import RegisterCompiler.Proofs.Execution.Standard

/-!
# Arithmetic with immediates of every width

An operation on a register and a number is written with the number in one byte, in four bytes, or in a register that is borrowed for
it, whatever is shortest. In each form the processor operates on the whole number, keeps every other register and writes memory only
where it puts the borrowed register (`immediate_arithmetic`).
-/

namespace RegisterCompiler.Machine

open X64 (Alu Instruction Reg Sequence modRM sequenceBytes wideRex)

/-- An operation on a register and an immediate. -/
inductive ImmediateOperation where
  | alu (op : Alu)
  | multiply
  deriving DecidableEq, Repr

/-- Where the number of an operation is: in one byte or in four, which the processor extends by their sign, or in a borrowed
register. -/
inductive ImmediateForm where
  | byte | word | spill
  deriving DecidableEq, Repr

/-- The number that the processor takes out of a form. -/
def ImmediateForm.extended (form : ImmediateForm) (imm : Int64) : Int64 :=
  match form with
  | byte => imm.toInt8.toInt64
  | word => imm.toInt32.toInt64
  | spill => imm

namespace ImmediateOperation

/-- The code of an operation on a register and an immediate. -/
def sequence (op : ImmediateOperation) (dest : Reg) (imm : Int64) : Sequence :=
  match op with
  | alu op => X64.aluImmediate op dest imm
  | multiply => X64.multiplyImmediate dest imm

/-- What an operation leaves in its register, in 64 bits; a compare leaves it as it is. -/
def result (op : ImmediateOperation) (a b : Int64) : Int64 :=
  match op with
  | alu .add => a + b
  | alu .or => a ||| b
  | alu .and => a &&& b
  | alu .sub => a - b
  | alu .xor => a ^^^ b
  | alu .cmp => a
  | multiply => a * b

/-- The instruction on a register that holds the immediate. -/
def onRegister (op : ImmediateOperation) (dest source : Reg) : Instruction :=
  match op with
  | alu op => .alu op dest source
  | multiply => .multiply dest source

/-- The bytes in front of an immediate: the prefix, one of two opcodes, and the operands. -/
def head (op : ImmediateOperation) (dest : Reg) (short : Bool) : List UInt8 :=
  match op with
  | alu op => [wideRex false dest.high, if short then 0x83 else 0x81, modRM 3 op.extension dest.low]
  | multiply => [wideRex dest.high dest.high, if short then 0x6B else 0x69, modRM 3 dest.low dest.low]

/-- The bytes of an operation in each form. -/
def bytes (op : ImmediateOperation) (dest : Reg) (imm : Int64) : ImmediateForm → List UInt8
  | .byte => op.head dest true ++ [imm.toInt8.toUInt8]
  | .word => op.head dest false ++ X64.int32Bytes imm.toInt32
  | .spill => sequenceBytes (X64.withImmediate dest imm (op.onRegister dest))

end ImmediateOperation

/-- What the processor does from an offset on where the bytes of an operation stand. -/
structure ImmediateApplied (op : ImmediateOperation) (dest : Register) (imm : Int64) (env : Environment) (o : Nat) (s t : State) :
    Prop where
  carried : Carried env o (op.sequence dest.hardware imm) (immediateDepth imm) s t
  result : (t.get dest.hardware).toInt64 = op.result (s.get dest.hardware).toInt64 imm
  others : ∀ r, r ≠ dest.hardware → t.get r = s.get r
  /-- A compare leaves the flags of comparing the register with the whole number. -/
  flags : op = .alu .cmp → t.flags = aluFlags .cmp (s.get dest.hardware) imm.toUInt64
  /-- So the six comparisons hold of them as they do of the two numbers. -/
  compared : op = .alu .cmp → ∀ c : Comparison, holds c.code t.flags = c.holds (signed (s.get dest.hardware)) imm.toInt

/-- How an operation on a register and an immediate is written, and what its bytes do. -/
structure ImmediateArithmetic (op : ImmediateOperation) (dest : Register) (imm : Int64) : Prop where
  /-- Of the forms that give the processor the immediate, the shortest is written. -/
  shortest : ∃ form : ImmediateForm, form.extended imm = imm ∧
    sequenceBytes (op.sequence dest.hardware imm) = op.bytes dest.hardware imm form ∧
    ∀ other : ImmediateForm, other.extended imm = imm →
      (op.bytes dest.hardware imm form).length ≤ (op.bytes dest.hardware imm other).length
  applied : ∀ (env : Environment) (o : Nat) (s : State), env.Holds o (sequenceBytes (op.sequence dest.hardware imm)) →
    env.Room (immediateDepth imm) s → ∃ t, ImmediateApplied op dest imm env o s t

section

variable (op : ImmediateOperation) (dest : Reg) (imm : Int64)

/-! ## Forms -/

/-- The part of an instruction before its immediate has three bytes. -/
theorem length_head (short : Bool) : (op.head dest short).length = 3 := by cases op <;> rfl

/-- The form with one byte for the immediate has four bytes. -/
theorem length_bytes_byte : (op.bytes dest imm .byte).length = 4 := by
  rw [ImmediateOperation.bytes, List.length_append, length_head]
  rfl

/-- The form with four bytes for the immediate has seven. -/
theorem length_bytes_word : (op.bytes dest imm .word).length = 7 := by
  rw [ImmediateOperation.bytes, List.length_append, length_head]
  rfl

/-- The instruction that puts the immediate into the borrowed register is longer than the other forms. -/
theorem length_bytes_spill : 10 ≤ (op.bytes dest imm .spill).length := by
  have hmove : (Instruction.moveImmediate (X64.borrowedFor dest) imm).encode.length = 10 := rfl
  simp only [ImmediateOperation.bytes, sequenceBytes, X64.withImmediate, List.flatMap_cons, List.length_append, hmove]
  omega

/-- A number that fits a byte fits 32 bits. -/
theorem fitsImmediate_of_byte {imm : Int64} (h : imm.toInt8.toInt64 = imm) : X64.fitsImmediate imm = true := by
  rw [X64.fitsImmediate, beq_iff_eq, ← h, Int8.toInt32_toInt64, Int8.toInt64_toInt32]

/-- A number in 32 bits fits a byte exactly if it is that byte, extended by its sign. -/
theorem fitsByte_toInt32_iff {imm : Int64} (h : X64.fitsImmediate imm = true) :
    X64.fitsByte imm.toInt32 = true ↔ imm.toInt8.toInt64 = imm := by
  have hword : imm.toInt32.toInt64 = imm := eq_of_beq h
  rw [X64.fitsByte, beq_iff_eq, Int64.toInt8_toInt32]
  constructor
  · intro hbyte
    rw [← Int8.toInt64_toInt32, hbyte, hword]
  · intro hbyte
    rw [← Int8.toInt32_toInt64, hbyte]

/-- An immediate within 32 bits is written in one byte if it fits, else in four. -/
theorem sequenceBytes_of_fits {imm : Int64} (h : X64.fitsImmediate imm = true) :
    sequenceBytes (op.sequence dest imm) = op.bytes dest imm (if X64.fitsByte imm.toInt32 then .byte else .word) := by
  cases op <;>
    simp only [ImmediateOperation.sequence, X64.aluImmediate, X64.multiplyImmediate, if_pos h, sequenceBytes, List.flatMap_cons,
      List.flatMap_nil, List.append_nil, Instruction.encode] <;>
    split <;> simp only [ImmediateOperation.bytes, X64.lowByte, Int64.toInt8_toInt32] <;> rfl

/-- An immediate beyond 32 bits goes through a borrowed register. -/
theorem sequenceBytes_of_not_fits {imm : Int64} (h : ¬X64.fitsImmediate imm = true) :
    sequenceBytes (op.sequence dest imm) = op.bytes dest imm .spill := by
  cases op with
  | alu op =>
    rw [ImmediateOperation.sequence, X64.aluImmediate, if_neg h]
    rfl
  | multiply =>
    rw [ImmediateOperation.sequence, X64.multiplyImmediate, if_neg h]
    rfl

/-- The form that is written is the shortest of those that give the processor the immediate. -/
theorem shortest_form : ∃ form : ImmediateForm, form.extended imm = imm ∧
    sequenceBytes (op.sequence dest imm) = op.bytes dest imm form ∧ ∀ other : ImmediateForm, other.extended imm = imm →
      (op.bytes dest imm form).length ≤ (op.bytes dest imm other).length := by
  have hspill := length_bytes_spill op dest imm
  by_cases hfits : X64.fitsImmediate imm = true
  · have hbytes := sequenceBytes_of_fits op dest hfits
    by_cases hbyte : X64.fitsByte imm.toInt32 = true
    · rw [if_pos hbyte] at hbytes
      refine ⟨.byte, (fitsByte_toInt32_iff hfits).1 hbyte, hbytes, ?_⟩
      intro other _
      rw [length_bytes_byte]
      cases other with
      | byte => rw [length_bytes_byte]
      | word => rw [length_bytes_word]; omega
      | spill => omega
    · rw [if_neg hbyte] at hbytes
      refine ⟨.word, eq_of_beq hfits, hbytes, ?_⟩
      intro other hother
      rw [length_bytes_word]
      cases other with
      | byte => exact absurd ((fitsByte_toInt32_iff hfits).2 hother) hbyte
      | word => rw [length_bytes_word]
      | spill => omega
  · refine ⟨.spill, rfl, sequenceBytes_of_not_fits op dest hfits, ?_⟩
    intro other hother
    cases other with
    | byte => exact absurd (fitsImmediate_of_byte hother) hfits
    | word => exact absurd (beq_iff_eq.2 hother) hfits
    | spill => exact Nat.le_refl _

/-! ## Effects -/

/-- An operation on an immediate stays within the depth of the immediate. -/
theorem contained_immediateOperation {dest : Reg} (hdest : dest ≠ .rsp) :
    ∀ i ∈ op.sequence dest imm, Contained (immediateDepth imm) i := by
  cases op with
  | alu op => exact contained_aluImmediate hdest op imm
  | multiply => exact contained_multiplyImmediate hdest imm

/-- An operation on words is the one on numbers. -/
theorem aluLeaves_eq_result (op : Alu) (a : UInt64) (imm : Int64) :
    aluLeaves op a imm.toUInt64 = (ImmediateOperation.result (.alu op) a.toInt64 imm).toUInt64 := by
  cases op <;> rfl

/-- An operation on an immediate leaves its result in the register, a compare its flags, and every other register as it was. -/
theorem performs_immediateOperation {env : Environment} {p : Nat} {s : State} {dest : Reg} {imm : Int64}
    (h : env.RoomAt (immediateDepth imm) p s) (hdest : dest ≠ .rsp) :
    ∃ t, Performs env (op.sequence dest imm) s t ∧ Sets dest (op.result (s.get dest).toInt64 imm).toUInt64 s t ∧
      (op = .alu .cmp → t.flags = aluFlags .cmp (s.get dest) imm.toUInt64) := by
  cases op with
  | alu op =>
    obtain ⟨t, ht, hsets, hflags⟩ := performs_aluImmediate h hdest op
    rw [aluLeaves_eq_result] at hsets
    refine ⟨t, ht, hsets, ?_⟩
    rintro ⟨⟩
    exact hflags
  | multiply =>
    obtain ⟨t, ht, hsets⟩ := performs_multiplyImmediate h hdest
    exact ⟨t, ht, hsets, nofun⟩

/-- An operation on a register and an immediate is written in its shortest form, and is the one on 64-bit numbers. -/
theorem immediate_arithmetic (op : ImmediateOperation) (dest : Register) (imm : Int64) : ImmediateArithmetic op dest imm := by
  refine ⟨shortest_form op dest.hardware imm, ?_⟩
  intro env o s hcode hroom
  have hat := hroom.roomAt ((immediateDepth_le imm).trans (by decide))
  obtain ⟨t, ht, hsets, hflags⟩ := performs_immediateOperation op hat dest.hardware_ne_rsp
  refine ⟨t, ht.carried hcode.codeAt (contained_immediateOperation op imm dest.hardware_ne_rsp), ?_, hsets.others, hflags, ?_⟩
  · rw [hsets.value]
    rfl
  · intro hop c
    rw [hflags hop]
    exact holds_code c _ _

end

/-- The code that compares `rax` with a number that does not fit 32 bits by one, in the standard environment. -/
def wideCompare : Environment := standardEnvironment (sequenceBytes (X64.aluImmediate .cmp .rax 0x80000000)) ⟨1, 2⟩

/-- A state at the standard stack pointer with a number in `rax` and in the register that is borrowed beside it. -/
def borrowingState : State :=
  ⟨((Registers.zero.set .rsp standardStackPointer).set .rax 0x7FFFFFFF).set .rbx 7,
    ⟨false, false, false, false, false⟩, Memory.zero, 0⟩

/-- The number just behind 32 bits is compared whole, and the borrowed register is put back. -/
theorem immediate_arithmetic_wideCompare :
    ∃ n t, Path wideCompare n (borrowingState.goto wideCompare 0) [] t ∧ holds .less t.flags = true ∧
      t.get .rax = 0x7FFFFFFF ∧ t.get .rbx = 7 := by
  have hsize : (sequenceBytes (X64.aluImmediate .cmp .rax 0x80000000)).length ≤ codeLimit := by decide +kernel
  have hcode : wideCompare.Holds 0 (sequenceBytes (X64.aluImmediate .cmp .rax 0x80000000)) :=
    holds_standardEnvironment hsize
  obtain ⟨t, ht⟩ := (immediate_arithmetic (.alu .cmp) .rax 0x80000000).applied wideCompare 0 borrowingState hcode
    (room_standardEnvironment hsize rfl (by decide))
  refine ⟨_, _, ht.carried.path, (ht.compared rfl .less).trans (by decide), ?_, ?_⟩
  · rw [State.get_goto]
    exact congrArg Int64.toUInt64 ht.result
  · rw [State.get_goto, ht.others .rbx (by decide)]
    rfl

end RegisterCompiler.Machine
