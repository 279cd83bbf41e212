import RegisterCompiler.Compiler.Session

/-!
# Compiled programs

Finished code with its entry, the offsets of its procedures and the host functions it was compiled for, and its text: a layout,
the bytes in hexadecimal and the listing.
-/

namespace RegisterCompiler

open X64 (ByteRange Code ListingError)

/-- A program as machine code. -/
structure Compiled where
  code : Code
  entry : Nat
  procedures : List (String × Nat)
  intrinsics : Intrinsics
  deriving DecidableEq, Repr

/-- The program of a session with the given entry, if no hole is left in its code. -/
def Session.finish (s : Session) (entry : Nat) : Except CompileError Compiled :=
  match s.assembler.finish with
  | .ok code => .ok ⟨code, entry, s.procedures, s.intrinsics⟩
  | .error e => .error (CompileError.ofAssembly e)

/-- All procedures of a program, the trampoline, and the calls between them; returns the entry. -/
def Compile.program (table : ProcedureTable) : Compile Nat := do
  table.procedures.forM fun p => discard (Compile.procedure p)
  let entry ← Compile.trampoline
  Compile.resolveCalls
  return entry

/-- The machine code of a program. -/
def ProcedureTable.compile (table : ProcedureTable) (intrinsics : Intrinsics) : Except CompileError Compiled :=
  match (Compile.program table).run (Session.start intrinsics) with
  | (.ok entry, s) => s.finish entry
  | (.error e, _) => .error e

namespace Compiled

/-- The offset of the first procedure of a name. -/
def procedureOffset? (c : Compiled) (name : String) : Option Nat :=
  (c.procedures.find? fun p => p.1 == name).map Prod.snd

/-- The name of an offset: that of the entry, or of the first procedure that begins there. -/
def nameOf? (c : Compiled) (offset : Nat) : Option String :=
  if offset = c.entry then some "<entry>" else (c.procedures.find? fun p => p.2 == offset).map Prod.fst

/-- The listing of a program. -/
def listing (c : Compiled) : Except ListingError String := c.code.listing c.nameOf? c.code.data

/-- The number of bytes on one line of a dump. -/
def bytesPerLine : Nat := 16

/-- The dump lines of the bytes from an offset on. -/
def byteLines (offset : Nat) (bytes : List UInt8) : List String :=
  if _h : bytes = [] then []
  else
    (hexOffset offset ++ ": " ++ String.intercalate " " ((bytes.take bytesPerLine).map hexByte)) ::
      byteLines (offset + bytesPerLine) (bytes.drop bytesPerLine)
termination_by bytes.length
decreasing_by
  have := List.length_pos_iff.2 ‹_›
  simp only [List.length_drop, bytesPerLine]
  omega

/-- An intrinsic in a dump: its name, its number of arguments and its address. -/
def intrinsicLine (name : String) (arity : Nat) (address : UInt64) : String :=
  "intrinsic " ++ name ++ "/" ++ toString arity ++ ": 0x" ++ hexPadded 16 address.toNat

/-- The layout, the bytes and the listing of a program. -/
def dump (c : Compiled) : Except ListingError String :=
  c.listing.map fun listing =>
    let layout := ["entry: 0x" ++ hexOffset c.entry, intrinsicLine "print_integer" 1 c.intrinsics.printInteger,
      intrinsicLine "print_text" 2 c.intrinsics.printText] ++
      c.procedures.map fun p => "procedure " ++ p.1 ++ ": 0x" ++ hexOffset p.2
    let bytes := (toString c.code.bytes.length ++ " byte(s):") :: byteLines 0 c.code.bytes
    String.join ((layout ++ "" :: bytes ++ ["", listing]).map (· ++ "\n"))

end Compiled

end RegisterCompiler
