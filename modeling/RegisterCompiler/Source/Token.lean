import RegisterCompiler.Number.Shortest
import RegisterCompiler.Program.Comparison
import RegisterCompiler.Program.Operation
import RegisterCompiler.Program.Register
import RegisterCompiler.Source.Position
import RegisterCompiler.Text.Escape

/-!
# Tokens

What a source text consists of. A token has a kind, the stretch of source it covers and its text there. Words are keywords,
registers, vector registers or identifiers: `TokenKind.ofWord?` reads a reserved word, and every other word is an
identifier. A malformed stretch is a token too and carries its fault.
-/

namespace RegisterCompiler

/-- A reserved word of the language. The last three have no use yet. -/
inductive Keyword where
  | branch | breakLoop | continueLoop | otherwise | guard | loop | pop | procedure | push | returnCall
  | reservedMacro | reservedVal | reservedVar
  deriving DecidableEq, Repr

namespace Keyword

/-- Every keyword. -/
def all : List Keyword :=
  [branch, breakLoop, continueLoop, otherwise, guard, loop, reservedMacro, pop, procedure, push, returnCall, reservedVal,
    reservedVar]

/-- The word of a keyword. -/
def spelling : Keyword → String
  | branch => "branch"
  | breakLoop => "break"
  | continueLoop => "continue"
  | otherwise => "else"
  | guard => "if"
  | loop => "loop"
  | pop => "pop"
  | procedure => "proc"
  | push => "push"
  | returnCall => "return"
  | reservedMacro => "macro"
  | reservedVal => "val"
  | reservedVar => "var"

/-- The keyword that a word spells. -/
def ofWord? (word : String) : Option Keyword := all.find? fun k => k.spelling == word

/-- The list has every keyword. -/
theorem mem_all (k : Keyword) : k ∈ all := by cases k <;> decide

end Keyword

/-- An operator or a bracket. -/
inductive Symbol where
  | operation (op : Operation)
  | update (op : Operation)
  | comparison (c : Comparison)
  | assign | output | shiftRight
  | bracketOpen | bracketClose | parenOpen | parenClose | braceOpen | braceClose
  | hash | comma | semicolon
  deriving DecidableEq, Repr

namespace Symbol

/-- The text of a symbol. -/
def spelling : Symbol → String
  | operation op => op.symbol
  | update op => op.symbol ++ "="
  | comparison c => c.symbol
  | assign => "="
  | output => "<<"
  | shiftRight => ">>"
  | bracketOpen => "["
  | bracketClose => "]"
  | parenOpen => "("
  | parenClose => ")"
  | braceOpen => "\x7b"
  | braceClose => "\x7d"
  | hash => "#"
  | comma => ","
  | semicolon => ";"

/-- The symbol written with two characters. -/
def ofPair? (a b : Char) : Option Symbol :=
  if b = '=' then
    match Operation.ofChar? a with
    | some op => some (update op)
    | none =>
      if a = '<' then some (comparison .lessEqual)
      else if a = '>' then some (comparison .greaterEqual)
      else if a = '=' then some (comparison .equal)
      else if a = '!' then some (comparison .notEqual)
      else none
  else if a = '<' ∧ b = '<' then some output
  else if a = '>' ∧ b = '>' then some shiftRight
  else none

/-- The symbol written with one character. -/
def ofChar? (a : Char) : Option Symbol :=
  match Operation.ofChar? a with
  | some op => some (operation op)
  | none =>
    if a = '<' then some (comparison .less)
    else if a = '>' then some (comparison .greater)
    else if a = '=' then some assign
    else if a = '[' then some bracketOpen
    else if a = ']' then some bracketClose
    else if a = '(' then some parenOpen
    else if a = ')' then some parenClose
    else if a = Char.ofNat 0x7B then some braceOpen
    else if a = Char.ofNat 0x7D then some braceClose
    else if a = '#' then some hash
    else if a = ',' then some comma
    else if a = ';' then some semicolon
    else none

end Symbol

/-- Why a stretch of source is no token. -/
inductive LexFault where
  /-- A byte that begins no token. -/
  | unrecognized
  /-- An integer that does not fit 63 bits. -/
  | integerRange
  /-- A backslash before a byte that is no escape. -/
  | invalidEscape (b : UInt8)
  /-- A backslash at the end of the input. -/
  | endInEscape
  /-- A string that is not closed; it was opened at the position. -/
  | unterminated (opened : Position)
  deriving DecidableEq, Repr

/-- The text of a lexical fault. -/
def LexFault.message : LexFault → String
  | .unrecognized => "Unrecognized token."
  | .integerRange => "Integer literal out of range."
  | .invalidEscape b => "Invalid escape sequence \\" ++ escapeByte b ++ "."
  | .endInEscape => "Unexpected end of input in escape sequence."
  | .unterminated opened =>
    "Unexpected end of input, missing \" to close the string opened at " ++ opened.text ++ "."

/-- The kind of a token. Integers are below 2 ^ 63 and carry no sign: a minus is a token of its own. -/
inductive TokenKind where
  | integer (value : Fin 0x8000000000000000)
  | float (value : Binary64)
  | text (value : String)
  | identifier (name : String)
  | register (r : Register)
  | vectorRegister (n : Fin 16)
  | keyword (k : Keyword)
  | symbol (s : Symbol)
  | endOfInput
  | malformed (fault : LexFault)
  deriving DecidableEq, Repr

namespace TokenKind

/-- The number below sixteen that decimal digits write. -/
def vectorNumber? (digits : List Char) : Option (Fin 16) :=
  let n := Nat.ofDigitChars 10 digits 0
  if h : digits ≠ [] ∧ digits.all Char.isDigit ∧ n < 16 then some ⟨n, h.2.2⟩ else none

/-- The vector register that a word spells: `xmm` and a number below sixteen. A plus sign may stand in front of the number;
only behind it may the number begin with needless zeros. -/
def vectorRegister? (word : String) : Option (Fin 16) :=
  match word.toList with
  | 'x' :: 'm' :: 'm' :: '+' :: digits => vectorNumber? digits
  | 'x' :: 'm' :: 'm' :: '0' :: _ :: _ => none
  | 'x' :: 'm' :: 'm' :: digits => vectorNumber? digits
  | _ => none

/-- The kind of a reserved word. -/
def ofWord? (word : String) : Option TokenKind :=
  match Keyword.ofWord? word with
  | some k => some (keyword k)
  | none =>
    match Register.ofName? word with
    | some r => some (register r)
    | none => (vectorRegister? word).map vectorRegister

/-- What a kind is called. -/
def name : TokenKind → String
  | integer _ => "integer"
  | float _ => "float"
  | text _ => "string"
  | identifier _ => "identifier"
  | register _ => "register"
  | vectorRegister _ => "vector register"
  | keyword k => "`" ++ k.spelling ++ "`"
  | symbol s => "`" ++ s.spelling ++ "`"
  | endOfInput => "end of input"
  | malformed _ => "error"

/-- A kind with its value. -/
def describe : TokenKind → String
  | integer value => "integer " ++ toString value.val
  | float value => "float " ++ value.text
  | text value => "string \"" ++ escapeText value ++ "\""
  | identifier name => "identifier " ++ name
  | register r => "register " ++ r.name
  | vectorRegister n => "vector register xmm" ++ toString n.val
  | malformed fault => "error " ++ fault.message
  | kind => kind.name

end TokenKind

/-- A token with the stretch of source it covers and its text there. -/
structure Token where
  kind : TokenKind
  span : Span
  lexeme : String
  deriving DecidableEq, Repr

/-- One line per token: file, line, column and kind. -/
def dumpTokens (file : String) (tokens : List Token) : String :=
  String.join (tokens.map fun t => file ++ ":" ++ t.span.start.text ++ ": " ++ t.kind.describe ++ "\n")

end RegisterCompiler
