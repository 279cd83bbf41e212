import RegisterCompiler.Text.Escape
import RegisterCompiler.X64.Decoder

/-!
# Listings

Code as readable lines. The code is first cut into instructions and stretches of data (`chunks`), or refused with the first
fault. Every target of a jump, a call or an address computation then gets a label, `L0`, `L1`, … in ascending order; a caller's
own name for an offset wins over the label. A label line stands before the line of its offset.
-/

namespace RegisterCompiler.X64

/-- A stretch of code from one offset up to, but not including, another. -/
structure ByteRange where
  start : Nat
  stop : Nat
  deriving DecidableEq, Repr

/-- Whether an offset lies in a stretch. -/
def ByteRange.contains (r : ByteRange) (offset : Nat) : Bool := r.start ≤ offset && offset < r.stop

/-- Why code cannot be listed, and where. -/
inductive ListingError where
  | endOfCode (offset : Nat)
  | unsupportedOpcode (offset : Nat) (opcode : UInt8)
  | unsupportedAddressing (offset : Nat)
  /-- A target before the start of the code. -/
  | invalidTarget (offset : Nat) (target : Int)
  deriving DecidableEq, Repr

/-- The text of a listing error. -/
def ListingError.message : ListingError → String
  | endOfCode offset => "unexpected EOF at byte offset " ++ toString offset
  | unsupportedOpcode offset opcode => "unsupported opcode 0x" ++ hexByte opcode ++ " at byte offset " ++ toString offset
  | unsupportedAddressing offset => "unsupported addressing mode at byte offset " ++ toString offset
  | invalidTarget offset target => "invalid relative target " ++ toString target ++ " at byte offset " ++ toString offset

/-- The error of a fault in the instruction at an offset. Only missing code is placed where it is missing. -/
def DecodeFault.placed (fault : DecodeFault) (offset : Nat) : ListingError :=
  match fault with
  | endOfCode taken => .endOfCode (offset + taken)
  | unsupportedOpcode opcode => .unsupportedOpcode offset opcode
  | unsupportedAddressing => .unsupportedAddressing offset

/-- What stands at an offset of the code. -/
inductive Chunk where
  | data (offset : Nat) (bytes : List UInt8)
  /-- An instruction, and the offset that it refers to, if any. -/
  | instruction (offset : Nat) (i : Instruction) (size : Nat) (target : Option Nat)
  deriving DecidableEq, Repr

namespace Chunk

/-- Where a chunk begins. -/
def offset : Chunk → Nat
  | data offset _ => offset
  | instruction offset _ _ _ => offset

/-- The number of bytes of a chunk. -/
def size : Chunk → Nat
  | data _ bytes => bytes.length
  | instruction _ _ size _ => size

/-- The offset that a chunk refers to. -/
def target? : Chunk → Option Nat
  | data _ _ => none
  | instruction _ _ _ target => target

/-- The chunk at the start of the code from an offset on: data up to the end of the first stretch that has the offset, or an
instruction. -/
def first (ranges : List ByteRange) (offset : Nat) (code : List UInt8) : Except ListingError Chunk :=
  match ranges.find? fun r => r.contains offset with
  | some r => .ok (data offset (code.take (r.stop - offset)))
  | none =>
    match decode code with
    | .error fault => .error (fault.placed offset)
    | .ok (i, size) =>
      match i.displacement? with
      | none => .ok (instruction offset i size none)
      | some d =>
        let target := (offset + size : Nat) + d.toInt
        if target < 0 then .error (.invalidTarget offset target)
        else .ok (instruction offset i size (some target.toNat))

/-- The chunks of the code from an offset on, of which the first bytes belong to an earlier chunk. -/
def cut (ranges : List ByteRange) (offset covered : Nat) : List UInt8 → Except ListingError (List Chunk)
  | [] => .ok []
  | b :: rest =>
    match covered with
    | n + 1 => Chunk.cut ranges (offset + 1) n rest
    | 0 =>
      match first ranges offset (b :: rest) with
      | .error e => .error e
      | .ok c => (Chunk.cut ranges (offset + 1) (c.size - 1) rest).map (c :: ·)

end Chunk

/-- The chunks of a piece of code, in order. -/
def chunks (ranges : List ByteRange) (code : List UInt8) : Except ListingError (List Chunk) := Chunk.cut ranges 0 0 code

/-- A number put into an ascending list, unless it is there. -/
def insertAscending (n : Nat) : List Nat → List Nat
  | [] => [n]
  | m :: rest => if n < m then n :: m :: rest else if n = m then m :: rest else m :: insertAscending n rest

/-- The offsets that chunks refer to, ascending and without repetition. -/
def targets (cs : List Chunk) : List Nat := (cs.filterMap Chunk.target?).foldl (fun ts t => insertAscending t ts) []

/-- The label of an offset: its place among the targets. -/
def label? (targets : List Nat) (offset : Nat) : Option String := (targets.idxOf? offset).map fun k => "L" ++ toString k

/-- The name of an offset: the caller's, or its label. -/
def name? (resolve : Nat → Option String) (targets : List Nat) (offset : Nat) : Option String :=
  match resolve offset with
  | some name => some name
  | none => label? targets offset

/-- The text of a chunk, given the names of offsets. -/
def Chunk.text (name : Nat → Option String) : Chunk → String
  | data _ bytes => ".ascii \"" ++ escapeBytes bytes ++ "\""
  | instruction _ i _ target =>
    i.text (match target with
      | none => ""
      | some t => (name t).getD ("0x" ++ hexOffset t))

/-- The lines of a chunk: its label, if its offset has a name, and its text behind its offset. -/
def Chunk.lines (name : Nat → Option String) (c : Chunk) : List String :=
  let line := hexOffset c.offset ++ ": " ++ c.text name
  match name c.offset with
  | some n => [n ++ ":", line]
  | none => [line]

/-- The listing of a piece of code with data in the given stretches and the caller's names for offsets. -/
def listing (resolve : Nat → Option String) (ranges : List ByteRange) (code : List UInt8) :
    Except ListingError String :=
  (chunks ranges code).map fun cs => String.intercalate "\n" (cs.flatMap (Chunk.lines (name? resolve (targets cs))))

/-- The resolver that names nothing. -/
def unnamed : Nat → Option String := fun _ => none

end RegisterCompiler.X64
