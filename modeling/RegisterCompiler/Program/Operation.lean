/-!
# Operations

The eight binary operations of the language. Each is written as one character, and followed by `=` where it updates a
register.
-/

namespace RegisterCompiler

/-- A binary operation on 64-bit words. -/
inductive Operation where
  | add | sub | mul | div | mod | and | or | xor
  deriving DecidableEq, Repr

namespace Operation

/-- Every operation. -/
def all : List Operation := [add, sub, mul, div, mod, and, or, xor]

/-- The character of an operation. -/
def char : Operation → Char
  | add => '+'
  | sub => '-'
  | mul => '*'
  | div => '/'
  | mod => '%'
  | and => '&'
  | or => '|'
  | xor => '^'

/-- The operator of an operation in source text. -/
def symbol (op : Operation) : String := String.singleton op.char

/-- The operation with a character. -/
def ofChar? (c : Char) : Option Operation := all.find? fun op => op.char == c

/-- The list has every operation. -/
theorem mem_all (op : Operation) : op ∈ all := by cases op <;> decide

/-- An operation is the one that its character stands for. -/
theorem ofChar?_char (op : Operation) : ofChar? op.char = some op := by cases op <;> decide

end Operation

end RegisterCompiler
