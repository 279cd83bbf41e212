import Mathlib
import RegisterCompiler.Compiler.Compiled

/-!
# Pieces of code

A piece of code is an instruction or a stretch of data whose size is known before its displacement is. `Piece.item` writes it at
an offset, and leaves a hole where its target is not known; `Piece.Lands` says that it is written for good, with a displacement
that leads exactly to its target. Pieces that stand one after another are each written at their own offset (`located`).
-/

namespace RegisterCompiler

open X64 (ConditionCode HoleKind Instruction Item Reg Sequence)

/-- Where a jump or a call goes: an offset, or a place that gets its offset later. A jump out of a loop and a jump to the next
round of a loop know the position of their statement, a call knows a name. -/
inductive Target where
  | offset (n : Nat)
  /-- An offset that only the step knows that reserved the jump. -/
  | later
  | loopStop (position : Position)
  | loopStart (position : Position)
  | procedure (name : String)
  deriving DecidableEq, Repr

/-- A piece of code. -/
inductive Piece where
  /-- An instruction that refers to no code. -/
  | plain (i : Instruction)
  | text (bytes : List UInt8)
  | jump (target : Target)
  | branch (code : ConditionCode) (target : Target)
  | call (target : Target)
  /-- Sets a register to the address of an offset. -/
  | address (dest : Reg) (target : Nat)
  deriving DecidableEq, Repr

/-- The displacement from behind an instruction to a target. -/
def displacementTo (target stop : Nat) : Int32 := Int32.ofInt (target - stop)

/-- A target is within reach of the end of an instruction. -/
def InReach (target stop : Nat) : Prop :=
  Int32.minValue.toInt ≤ (target : Int) - stop ∧ (target : Int) - stop ≤ Int32.maxValue.toInt

instance (target stop : Nat) : Decidable (InReach target stop) := inferInstanceAs (Decidable (_ ∧ _))

/-- The displacement to a target within reach leads exactly there. -/
theorem toInt_displacementTo {target stop : Nat} (h : InReach target stop) :
    (stop : Int) + (displacementTo target stop).toInt = target := by
  have hmin : Int32.minValue.toInt = -2147483648 := by decide
  have hmax : Int32.maxValue.toInt = 2147483647 := by decide
  rw [InReach, hmin, hmax] at h
  unfold displacementTo
  rw [Int32.toInt_ofInt_of_le] <;> omega

namespace Piece

/-- The number of bytes of a piece. -/
def size : Piece → Nat
  | plain i => i.size
  | text bytes => bytes.length
  | jump _ => HoleKind.jump.size
  | branch _ _ => HoleKind.branch.size
  | call _ => HoleKind.call.size
  | address _ _ => 7

/-- What a piece refers to. -/
def target? : Piece → Option Target
  | plain _ => none
  | text _ => none
  | jump target => some target
  | branch _ target => some target
  | call target => some target
  | address _ target => some (.offset target)

/-- What is written for a piece at an offset: a hole, as long as its target is not known. -/
def item (offset : Nat) (piece : Piece) : Item :=
  let written (kind : HoleKind) (target : Target) (instruction : Int32 → Instruction) : Item :=
    match target with
    | .offset n => .instruction (instruction (displacementTo n (offset + kind.size)))
    | _ => .hole kind
  match piece with
  | plain i => .instruction i
  | text bytes => .data bytes
  | jump target => written .jump target .jump
  | branch code target => written .branch target (.branch code)
  | call target => written .call target .call
  | address dest target => .instruction (.address dest (displacementTo target (offset + 7)))

/-- As far as the target of a piece at an offset is known, it is within reach. -/
def Reaches (offset : Nat) (piece : Piece) : Prop :=
  ∀ n, piece.target? = some (.offset n) → InReach n (offset + piece.size)

/-- The target of a piece at an offset, if there is one, is known and within reach. -/
def Lands (offset : Nat) (piece : Piece) : Prop :=
  match piece.target? with
  | none => True
  | some (.offset n) => InReach n (offset + piece.size)
  | some _ => False

instance (offset : Nat) (piece : Piece) : Decidable (piece.Lands offset) := by
  unfold Lands
  split <;> infer_instance

/-- A piece takes up as many bytes as are written for it. -/
theorem size_item (offset : Nat) (piece : Piece) : (piece.item offset).size = piece.size := by
  cases piece with
  | plain i => rfl
  | text bytes => rfl
  | jump target => cases target <;> rfl
  | branch code target => cases target <;> rfl
  | call target => cases target <;> rfl
  | address dest target => rfl

/-- A piece that lands is no hole. -/
theorem isHole_item {offset : Nat} {piece : Piece} (h : piece.Lands offset) : (piece.item offset).isHole = false := by
  cases piece with
  | plain i => rfl
  | text bytes => rfl
  | jump target => cases target <;> first | rfl | exact h.elim
  | branch code target => cases target <;> first | rfl | exact h.elim
  | call target => cases target <;> first | rfl | exact h.elim
  | address dest target => rfl

/-- A piece within reach that is no hole lands. -/
theorem lands_of_reaches {offset : Nat} {piece : Piece} (h : piece.Reaches offset) (hitem : (piece.item offset).isHole = false) :
    piece.Lands offset := by
  unfold Lands
  cases piece with
  | plain i => trivial
  | text bytes => trivial
  | jump target => cases target <;> first | exact h _ rfl | cases hitem
  | branch code target => cases target <;> first | exact h _ rfl | cases hitem
  | call target => cases target <;> first | exact h _ rfl | cases hitem
  | address dest target => exact h _ rfl

end Piece

/-- The number of bytes of pieces. -/
def piecesSize (pieces : List Piece) : Nat := (pieces.map Piece.size).sum

/-- No pieces take up no bytes. -/
@[simp] theorem piecesSize_nil : piecesSize [] = 0 := rfl

/-- Pieces take up what the first one and what the rest takes up. -/
@[simp] theorem piecesSize_cons (piece : Piece) (pieces : List Piece) :
    piecesSize (piece :: pieces) = piece.size + piecesSize pieces := rfl

/-- Two parts take up the sum of what each takes up. -/
@[simp] theorem piecesSize_append (a b : List Piece) : piecesSize (a ++ b) = piecesSize a + piecesSize b := by
  simp [piecesSize]

/-- Exchanging pieces for others of their sizes does not change the size of all. -/
theorem piecesSize_map {f : Piece → Piece} (h : ∀ p, (f p).size = p.size) (pieces : List Piece) :
    piecesSize (pieces.map f) = piecesSize pieces := by
  induction pieces with
  | nil => rfl
  | cons p rest ih => simp [h, ih]

/-- Pieces from an offset on, each with its own offset. -/
def located (offset : Nat) : List Piece → List (Nat × Piece)
  | [] => []
  | piece :: rest => (offset, piece) :: located (offset + piece.size) rest

/-- No pieces are located nowhere. -/
@[simp] theorem located_nil (offset : Nat) : located offset [] = [] := rfl

/-- The first piece is located at the offset and the rest behind it. -/
@[simp] theorem located_cons (offset : Nat) (piece : Piece) (rest : List Piece) :
    located offset (piece :: rest) = (offset, piece) :: located (offset + piece.size) rest := rfl

/-- The second part is located behind the first one. -/
@[simp] theorem located_append (offset : Nat) (a b : List Piece) :
    located offset (a ++ b) = located offset a ++ located (offset + piecesSize a) b := by
  induction a generalizing offset with
  | nil => simp
  | cons piece rest ih => simp [ih, Nat.add_assoc]

/-- Locating pieces does not change them. -/
theorem map_snd_located (offset : Nat) (pieces : List Piece) : (located offset pieces).map Prod.snd = pieces := by
  induction pieces generalizing offset with
  | nil => rfl
  | cons piece rest ih => simp [ih]

/-- A located piece is one of the pieces. -/
theorem mem_of_mem_located {offset : Nat} {pieces : List Piece} {p : Nat × Piece} (h : p ∈ located offset pieces) :
    p.2 ∈ pieces := by
  rw [← map_snd_located offset pieces]
  exact List.mem_map_of_mem h

/-- What is written for pieces from an offset on. -/
def itemsOf (offset : Nat) (pieces : List Piece) : List Item := (located offset pieces).map fun p => p.2.item p.1

/-- No pieces are written as no items. -/
@[simp] theorem itemsOf_nil (offset : Nat) : itemsOf offset [] = [] := rfl

/-- The first piece is written at the offset and the rest behind it. -/
@[simp] theorem itemsOf_cons (offset : Nat) (piece : Piece) (rest : List Piece) :
    itemsOf offset (piece :: rest) = piece.item offset :: itemsOf (offset + piece.size) rest := rfl

/-- The second part is written behind the first one. -/
@[simp] theorem itemsOf_append (offset : Nat) (a b : List Piece) :
    itemsOf offset (a ++ b) = itemsOf offset a ++ itemsOf (offset + piecesSize a) b := by
  simp [itemsOf]

/-- Every piece is written as one item. -/
@[simp] theorem length_itemsOf (offset : Nat) (pieces : List Piece) : (itemsOf offset pieces).length = pieces.length := by
  induction pieces generalizing offset with
  | nil => rfl
  | cons piece rest ih => simp [ih]

/-- The items of pieces are as large as the pieces. -/
@[simp] theorem itemsSize_itemsOf (offset : Nat) (pieces : List Piece) :
    X64.itemsSize (itemsOf offset pieces) = piecesSize pieces := by
  induction pieces generalizing offset with
  | nil => rfl
  | cons piece rest ih => simp [X64.itemsSize, ih, Piece.size_item]

/-- The bytes of pieces from an offset on. -/
def bytesOf (offset : Nat) (pieces : List Piece) : List UInt8 := (itemsOf offset pieces).flatMap Item.encode

/-- The bytes of the first piece stand before those of the rest. -/
theorem bytesOf_cons (offset : Nat) (piece : Piece) (rest : List Piece) :
    bytesOf offset (piece :: rest) = (piece.item offset).encode ++ bytesOf (offset + piece.size) rest := rfl

/-- Pieces have as many bytes as they take up. -/
theorem length_bytesOf (offset : Nat) (pieces : List Piece) : (bytesOf offset pieces).length = piecesSize pieces := by
  induction pieces generalizing offset with
  | nil => rfl
  | cons piece rest ih =>
    rw [bytesOf_cons, List.length_append, ih, piecesSize_cons, ← Piece.size_item offset piece]
    rfl

/-- Every piece from an offset on is within reach of what it refers to, as far as that is known. -/
def AllReach (offset : Nat) (pieces : List Piece) : Prop := ∀ p ∈ located offset pieces, p.2.Reaches p.1

/-- Every piece from an offset on is written for good. -/
def AllLand (offset : Nat) (pieces : List Piece) : Prop := ∀ p ∈ located offset pieces, p.2.Lands p.1

instance (offset : Nat) (pieces : List Piece) : Decidable (AllLand offset pieces) :=
  inferInstanceAs (Decidable (∀ p ∈ located offset pieces, p.2.Lands p.1))

/-- No pieces are all within reach. -/
@[simp] theorem allReach_nil (offset : Nat) : AllReach offset [] := by simp [AllReach]

/-- The targets are within reach exactly if that of the first piece is and those of the rest are. -/
@[simp] theorem allReach_cons (offset : Nat) (piece : Piece) (rest : List Piece) :
    AllReach offset (piece :: rest) ↔ piece.Reaches offset ∧ AllReach (offset + piece.size) rest := by
  simp [AllReach]

/-- The targets of two parts are within reach exactly if those of each are. -/
@[simp] theorem allReach_append (offset : Nat) (a b : List Piece) :
    AllReach offset (a ++ b) ↔ AllReach offset a ∧ AllReach (offset + piecesSize a) b := by
  simp [AllReach, or_imp, forall_and]

/-- No pieces all land. -/
@[simp] theorem allLand_nil (offset : Nat) : AllLand offset [] := by simp [AllLand]

/-- Pieces land exactly if the first one does and the rest does. -/
@[simp] theorem allLand_cons (offset : Nat) (piece : Piece) (rest : List Piece) :
    AllLand offset (piece :: rest) ↔ piece.Lands offset ∧ AllLand (offset + piece.size) rest := by
  simp [AllLand]

/-- Two parts land exactly if each does. -/
@[simp] theorem allLand_append (offset : Nat) (a b : List Piece) :
    AllLand offset (a ++ b) ↔ AllLand offset a ∧ AllLand (offset + piecesSize a) b := by
  simp [AllLand, or_imp, forall_and]

/-- Pieces that all land leave no hole. -/
theorem countP_isHole_itemsOf {offset : Nat} {pieces : List Piece} (h : AllLand offset pieces) :
    (itemsOf offset pieces).countP Item.isHole = 0 := by
  induction pieces generalizing offset with
  | nil => rfl
  | cons piece rest ih =>
    obtain ⟨hpiece, hrest⟩ := (allLand_cons _ _ _).1 h
    simp [Piece.isHole_item hpiece, ih hrest]

/-- Pieces within reach that leave no hole all land. -/
theorem allLand_of_allReach {offset : Nat} {pieces : List Piece} (h : AllReach offset pieces)
    (hholes : (itemsOf offset pieces).countP Item.isHole = 0) : AllLand offset pieces := by
  intro p hp
  refine Piece.lands_of_reaches (h p hp) ?_
  rw [List.countP_eq_zero] at hholes
  simpa using hholes _ (List.mem_map_of_mem hp)

/-- Instructions that refer to no code, as pieces. -/
def plainPieces (sequence : Sequence) : List Piece := sequence.map .plain

/-- The number of bytes of a sequence. -/
def sequenceSize (sequence : Sequence) : Nat := (sequence.map Instruction.size).sum

/-- Plain pieces take up the bytes of their instructions. -/
@[simp] theorem piecesSize_plainPieces (sequence : Sequence) : piecesSize (plainPieces sequence) = sequenceSize sequence := by
  simp [piecesSize, plainPieces, sequenceSize, Function.comp_def, Piece.size]

/-- Plain pieces have no target that could be out of reach. -/
theorem allReach_plainPieces (offset : Nat) (sequence : Sequence) : AllReach offset (plainPieces sequence) := by
  induction sequence generalizing offset with
  | nil => exact allReach_nil offset
  | cons i rest ih => exact (allReach_cons _ _ _).2 ⟨by simp [Piece.Reaches, Piece.target?], ih _⟩

end RegisterCompiler
