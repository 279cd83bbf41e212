/-!
# Positions in source text

A position counts bytes from the start, lines from one and bytes of the line from one. Reading a byte moves it by
`Position.step`, reading a text by `Position.advance`, so the position behind two pieces is reached piece by piece
(`Position.advance_append`).
-/

namespace RegisterCompiler

/-- A place in a source text: bytes before it, its line, and its column in bytes. -/
structure Position where
  offset : Nat
  line : Nat
  column : Nat
  deriving DecidableEq, Repr, Inhabited

namespace Position

/-- The start of a text. -/
def origin : Position := ⟨0, 1, 1⟩

/-- The position of a fault that has no place in the source. -/
def unknown : Position := ⟨0, 0, 0⟩

/-- The position behind one byte; a line feed begins a new line. -/
def step (p : Position) (b : UInt8) : Position :=
  if b = 0x0A then ⟨p.offset + 1, p.line + 1, 1⟩ else ⟨p.offset + 1, p.line, p.column + 1⟩

/-- The position behind a sequence of bytes. -/
def advance (p : Position) (bytes : List UInt8) : Position := bytes.foldl step p

/-- Line and column. -/
def text (p : Position) : String := toString p.line ++ ":" ++ toString p.column

/-- Nothing passed, nothing moved. -/
@[simp] theorem advance_nil (p : Position) : p.advance [] = p := rfl

/-- Bytes are passed one after another. -/
theorem advance_cons (p : Position) (b : UInt8) (bytes : List UInt8) : p.advance (b :: bytes) = (p.step b).advance bytes := rfl

/-- Passing two parts is passing one and then the other. -/
theorem advance_append (p : Position) (a b : List UInt8) : p.advance (a ++ b) = (p.advance a).advance b := by
  simp [advance, List.foldl_append]

end Position

/-- A stretch of source text. -/
structure Span where
  start : Position
  stop : Position
  deriving DecidableEq, Repr, Inhabited

namespace Span

/-- The empty stretch at a position. -/
def point (p : Position) : Span := ⟨p, p⟩

/-- Both ends as line and column. -/
def text (s : Span) : String := s.start.text ++ "-" ++ s.stop.text

end Span

end RegisterCompiler
