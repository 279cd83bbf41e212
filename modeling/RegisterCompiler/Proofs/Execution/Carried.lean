import RegisterCompiler.Proofs.Execution.Sequences

/-!
# Carrying out the bytes of a sequence

The bytes of a sequence may stand anywhere in the code (`Environment.Holds`). A sequence is carried out (`Carried`) if the processor
comes from its first byte to behind its last one, with nothing printed, and at every step on the way the stack pointer and memory but
for a number of bytes right below it are as they were.
-/

namespace RegisterCompiler

namespace X64

/-- The bytes of a sequence. -/
def sequenceBytes (sequence : Sequence) : List UInt8 := sequence.flatMap Instruction.encode

end X64

namespace Machine

open X64 (Instruction Reg Sequence sequenceBytes)

/-- Bytes stand in the code from an offset on, and the code fits the address space. -/
structure Environment.Holds (env : Environment) (o : Nat) (bytes : List UInt8) : Prop where
  size_le : env.image.bytes.size ≤ 2 ^ 64
  held : bytes <+: env.image.bytes.toList.drop o

/-- The processor comes from an offset of the code to behind the sequence that stands there, and writes on its way no more than a
number of bytes right below the stack pointer. -/
structure Carried (env : Environment) (o : Nat) (sequence : Sequence) (depth : Nat) (s t : State) : Prop where
  path : Path env sequence.length (s.goto env o) [] (t.goto env (o + sequenceSize sequence))
  untouched : ∀ k es u, k ≤ sequence.length → Path env k (s.goto env o) es u → es = [] ∧ Untouched depth s u

section

variable {env : Environment} {o : Nat} {sequence : Sequence} {depth : Nat} {s t : State}

/-- Plain instructions have no target that could be out of reach. -/
theorem allLand_plainPieces (o : Nat) (sequence : Sequence) : AllLand o (plainPieces sequence) := by
  induction sequence generalizing o with
  | nil => exact allLand_nil o
  | cons i rest ih => exact (allLand_cons _ _ _).2 ⟨trivial, ih _⟩

/-- The bytes of plain pieces are those of their instructions, wherever they stand. -/
theorem bytesOf_plainPieces (o : Nat) (sequence : Sequence) : bytesOf o (plainPieces sequence) = sequenceBytes sequence := by
  induction sequence generalizing o with
  | nil => rfl
  | cons i rest ih => exact congrArg (i.encode ++ ·) (ih _)

/-- Code that holds the bytes of pieces that land has the pieces there. -/
theorem Environment.Holds.codeAt_pieces {pieces : List Piece} (h : env.Holds o (bytesOf o pieces)) (hland : AllLand o pieces) :
    env.CodeAt o pieces := by
  obtain ⟨behind, hbehind⟩ := h.held
  exact Environment.codeAt_of_drop_append h.size_le hland hbehind.symm

/-- Code that holds the bytes of a sequence has the sequence there. -/
theorem Environment.Holds.codeAt (h : env.Holds o (sequenceBytes sequence)) : env.CodeAt o (plainPieces sequence) := by
  rw [← bytesOf_plainPieces o] at h
  exact h.codeAt_pieces (allLand_plainPieces o sequence)

/-- A sequence that is performed is carried out where it stands. -/
theorem Performs.carried (h : Performs env sequence s t) (hcode : env.CodeAt o (plainPieces sequence))
    (hcontained : ∀ i ∈ sequence, Contained depth i) : Carried env o sequence depth s t :=
  ⟨h.path hcode, fun _ _ _ hk hpath => hcode.untouched hcontained hpath hk⟩

end

end Machine

end RegisterCompiler
