import RegisterCompiler.X64.Listing
import RegisterCompiler.X64.Sequence

/-!
# Code under construction

An assembler holds the code written so far as a list of items: instructions, data, and holes reserved for a jump, a branch or
a call whose target is not known yet. A hole takes up the bytes of the instruction that will fill it, so filling it moves
nothing. Code is finished when no hole is left.
-/

namespace RegisterCompiler.X64

/-- Why code cannot be written or finished. -/
inductive AssemblyError where
  /-- A displacement that does not fit 32 bits. -/
  | outOfRange (start target : Nat)
  /-- A target behind the code written so far. -/
  | outOfBounds (start target : Nat)
  /-- Holes left at the end. -/
  | unfilled (count : Nat)
  /-- Slots still borrowed at the end; sequences are written whole, so this never happens. -/
  | slotsBorrowed
  deriving DecidableEq, Repr

/-- The text of an assembly error. -/
def AssemblyError.message : AssemblyError → String
  | outOfRange start target =>
    "relative displacement from 0x" ++ hexOffset start ++ " to 0x" ++ hexOffset target ++ " is out of range"
  | outOfBounds start target =>
    "target 0x" ++ hexOffset target ++ " of placeholder at 0x" ++ hexOffset start ++ " lies outside the code buffer"
  | unfilled count => toString count ++ " placeholder(s) were never patched"
  | slotsBorrowed => "scratch section still open at finish"

/-- Requests that break a rule every caller keeps. -/
inductive Misuse where
  | slotOutsideSequence
  | sumOverflow
  | differenceOverflow
  deriving DecidableEq, Repr

/-- The text of a misuse. -/
def Misuse.message : Misuse → String
  | slotOutsideSequence => "scratch slot used outside section"
  | sumOverflow => "attempt to add with overflow"
  | differenceOverflow => "attempt to subtract with overflow"

/-- What a hole is reserved for. -/
inductive HoleKind where
  | jump | branch | call
  deriving DecidableEq, Repr

/-- The number of bytes of a hole. -/
def HoleKind.size : HoleKind → Nat
  | jump => 5
  | branch => 6
  | call => 5

/-- A piece of code. -/
inductive Item where
  | instruction (i : Instruction)
  | data (bytes : List UInt8)
  | hole (kind : HoleKind)
  deriving DecidableEq, Repr

namespace Item

/-- The bytes of an item; a hole holds no-operations. -/
def encode : Item → List UInt8
  | instruction i => i.encode
  | data bytes => bytes
  | hole kind => List.replicate kind.size 0x90

/-- The number of bytes of an item. -/
def size (item : Item) : Nat := item.encode.length

/-- Whether an item is a hole. -/
def isHole : Item → Bool
  | hole _ => true
  | _ => false

/-- A hole of the given kind filled with an instruction of its size; any other item as it is. -/
def fill (kind : HoleKind) (i : Instruction) (item : Item) : Item :=
  if item = hole kind ∧ i.size = kind.size then instruction i else item

/-- Filling an item does not change its size. -/
theorem size_fill (kind : HoleKind) (i : Instruction) (item : Item) : (item.fill kind i).size = item.size := by
  unfold fill
  split
  · rename_i h
    rw [h.1]
    simpa [size, encode, Instruction.size] using h.2
  · rfl

end Item

/-- The number of bytes of a list of items. -/
def itemsSize : List Item → Nat
  | [] => 0
  | item :: rest => item.size + itemsSize rest

/-- The size of two lists of items is the sum of theirs. -/
@[simp] theorem itemsSize_append (a b : List Item) : itemsSize (a ++ b) = itemsSize a + itemsSize b := by
  induction a with
  | nil => simp [itemsSize]
  | cons item rest ih => simp [itemsSize, ih, Nat.add_assoc]

/-- Changing one item for one of its size does not change the size of all. -/
theorem itemsSize_modify (items : List Item) (index : Nat) (f : Item → Item) (h : ∀ item, (f item).size = item.size) :
    itemsSize (items.modify index f) = itemsSize items := by
  induction items generalizing index with
  | nil => cases index <;> rfl
  | cons item rest ih =>
    cases index with
    | zero => simp [itemsSize, h]
    | succ index =>
      have := ih index
      simp_all [itemsSize]

/-- Code under construction, with its size at hand. -/
structure Assembler where
  items : Array Item := #[]
  offset : Nat := 0
  offset_eq : offset = itemsSize items.toList := by rfl

/-- A reserved hole: its place among the items and its offset. -/
structure Hole (kind : HoleKind) where
  index : Nat
  offset : Nat
  deriving DecidableEq, Repr

/-- Finished code and the stretches of it that are data. -/
structure Code where
  bytes : List UInt8
  data : List ByteRange
  deriving DecidableEq, Repr

/-- A difference as a 32-bit displacement, if it fits. -/
def displacement? (difference : Int) : Option Int32 :=
  if Int32.minValue.toInt ≤ difference ∧ difference ≤ Int32.maxValue.toInt then some (Int32.ofInt difference) else none

/-- The stretches of data among items from an offset on. -/
def dataRanges (offset : Nat) : List Item → List ByteRange
  | [] => []
  | .data bytes :: rest => ⟨offset, offset + bytes.length⟩ :: dataRanges (offset + bytes.length) rest
  | item :: rest => dataRanges (offset + item.size) rest

namespace Assembler

/-- No code. -/
def empty : Assembler := {}

/-- The bytes written so far. -/
def bytes (a : Assembler) : List UInt8 := a.items.toList.flatMap Item.encode

/-- The stretches of data written so far. -/
def data (a : Assembler) : List ByteRange := dataRanges 0 a.items.toList

/-- The number of holes. -/
def pending (a : Assembler) : Nat := a.items.toList.countP Item.isHole

/-- Adds an item. -/
def add (a : Assembler) (item : Item) : Assembler :=
  ⟨a.items.push item, a.offset + item.size, by simp [itemsSize, a.offset_eq]⟩

/-- Adds an instruction. -/
def emit (a : Assembler) (i : Instruction) : Assembler := a.add (.instruction i)

/-- Adds a sequence of instructions. -/
def emitAll (a : Assembler) (sequence : Sequence) : Assembler := sequence.foldl emit a

/-- Adds data; control must never reach it. Returns the stretch it takes up. -/
def embed (a : Assembler) (bytes : List UInt8) : Assembler × ByteRange :=
  (a.add (.data bytes), ⟨a.offset, a.offset + bytes.length⟩)

/-- Reserves a hole. -/
def reserve (a : Assembler) (kind : HoleKind) : Assembler × Hole kind :=
  (a.add (.hole kind), ⟨a.items.size, a.offset⟩)

/-- Fills a hole with the instruction made of the displacement to a target. -/
def fill {kind : HoleKind} (a : Assembler) (hole : Hole kind) (target : Nat) (instruction : Int32 → Instruction) :
    Except AssemblyError Assembler :=
  if a.offset < target then .error (.outOfBounds hole.offset target)
  else
    match displacement? ((target : Int) - (hole.offset + kind.size : Nat)) with
    | none => .error (.outOfRange hole.offset target)
    | some d =>
      .ok ⟨a.items.modify hole.index (Item.fill kind (instruction d)), a.offset, by
        rw [Array.toList_modify, itemsSize_modify _ _ _ (Item.size_fill _ _), a.offset_eq]⟩

/-- Fills a jump. -/
def patchJump (a : Assembler) (hole : Hole .jump) (target : Nat) : Except AssemblyError Assembler :=
  a.fill hole target .jump

/-- Fills a branch, which is taken if the comparison holds, or if it does not where inverted. -/
def patchBranch (a : Assembler) (hole : Hole .branch) (target : Nat) (comparison : Comparison) (inverted : Bool) :
    Except AssemblyError Assembler :=
  a.fill hole target (.branch (if inverted then comparison.complement else comparison).code)

/-- Fills a call. -/
def patchCall (a : Assembler) (hole : Hole .call) (target : Nat) : Except AssemblyError Assembler :=
  a.fill hole target .call

/-- Jumps to code written before. If it is too far away, the hole of the jump stays. -/
def jumpBack (a : Assembler) (target : Nat) : Assembler × Except AssemblyError Unit :=
  let (a, hole) := a.reserve .jump
  match a.patchJump hole target with
  | .ok a => (a, .ok ())
  | .error e => (a, .error e)

/-- The signed difference from a code offset to a 64-bit target, both taken as signed 64-bit numbers, unless it overflows
these. -/
def signedDifference (target : UInt64) (stop : Nat) : Except Misuse Int :=
  let difference := target.toInt64.toInt - stop
  if difference < Int64.minValue.toInt then .error .differenceOverflow else .ok difference

/-- Sets a register to the address of an offset of the code. -/
def emitAddress (a : Assembler) (dest : Reg) (target : UInt64) : Except Misuse (Except AssemblyError Assembler) := do
  let difference ← signedDifference target (a.offset + 7)
  return match displacement? difference with
    | none => .error (.outOfRange a.offset target.toNat)
    | some d => .ok (a.emit (.address dest d))

/-- Sets a slot or a register from the other outside a sequence, which is refused: a slot lives no longer than the sequence
that borrows it. -/
def accessSlot (_ : Assembler) : Except Misuse Assembler := .error .slotOutsideSequence

/-- The finished code, if no hole is left. -/
def finish (a : Assembler) : Except AssemblyError Code :=
  if a.pending = 0 then .ok ⟨a.bytes, a.data⟩ else .error (.unfilled a.pending)

end Assembler

/-- The listing of finished code. Without stretches of data given, its own are taken. -/
def Code.listing (c : Code) (resolve : Nat → Option String) (ranges : List ByteRange) : Except ListingError String :=
  X64.listing resolve (if ranges.isEmpty then c.data else ranges) c.bytes

end RegisterCompiler.X64
