import RegisterCompiler.Source.Token
import RegisterCompiler.Text.Lossy

/-!
# From bytes to tokens

A `Lexer` stands at a position before the bytes it has not read and hands out one token at a time, the last one being the end
of the input. A scan splits what it reads into the bytes before the token's span, the bytes of the span and the rest, and
loses none of them (`Scan.input_scan`); every scan reads a byte (`Scan.rest_length_lt`), so the tokens of an input are a list
(`Lexer.tokens`). Malformed input becomes a token as well, and scanning goes on behind it; `tokenize` instead stops at the first
such token.
-/

namespace RegisterCompiler

/-- A byte read as the character with its number. -/
def charOfByte (b : UInt8) : Char := Char.ofNat b.toNat

/-- A decimal digit. -/
def isDigitByte (b : UInt8) : Bool := 0x30 ≤ b && b ≤ 0x39

/-- A letter or the underscore, which begin a word. -/
def isWordStart (b : UInt8) : Bool := (0x41 ≤ b && b ≤ 0x5A) || (0x61 ≤ b && b ≤ 0x7A) || b == 0x5F

/-- A byte inside a word. -/
def isWordByte (b : UInt8) : Bool := isWordStart b || isDigitByte b

/-- A space, a tab, a carriage return or a line feed. -/
def isBlank (b : UInt8) : Bool := b == 0x20 || b == 0x09 || b == 0x0D || b == 0x0A

/-- The double quote. -/
def quoteByte : UInt8 := 0x22

/-- The backslash. -/
def backslashByte : UInt8 := 0x5C

/-- The point in a decimal fraction. -/
def pointByte : UInt8 := 0x2E

/-- The slash, two of which begin a comment. -/
def slashByte : UInt8 := 0x2F

/-- The line feed, before which a comment ends. -/
def lineFeed : UInt8 := 0x0A

/-- The number that decimal digits write. -/
def digitsValue (digits : List UInt8) : Nat := Nat.ofDigitChars 10 (digits.map charOfByte) 0

/-- The byte that an escape stands for, by the byte behind the backslash. -/
def escapedByte? (code : UInt8) : Option UInt8 :=
  if code = backslashByte ∨ code = quoteByte then some code
  else if code = 0x30 then some 0x00
  else if code = 0x72 then some 0x0D
  else if code = 0x6E then some 0x0A
  else if code = 0x74 then some 0x09
  else none

/-- Blanks and comments at the start of the input, and what follows them. A comment reaches to the end of its line; the flag
tells that the input begins inside one. -/
def splitGap (comment : Bool) : List UInt8 → List UInt8 × List UInt8
  | [] => ([], [])
  | b :: rest =>
    let continued (comment : Bool) := (splitGap comment rest).map (b :: ·) id
    if comment then continued (b != lineFeed)
    else if isBlank b then continued false
    else if b = slashByte ∧ rest.head? = some slashByte then continued true
    else ([], b :: rest)

/-- A gap and what is behind it are all of the input. -/
theorem append_splitGap (comment : Bool) (input : List UInt8) :
    (splitGap comment input).1 ++ (splitGap comment input).2 = input := by
  induction input generalizing comment with
  | nil => rfl
  | cons b rest ih =>
    rw [splitGap]
    simp only
    split
    · simp [ih]
    · split
      · simp [ih]
      · split
        · simp [ih]
        · rfl

/-- How the body of a string ends, behind its opening quote. Value and source are the bytes read so far, with and without
escapes resolved. -/
inductive StringBody where
  | closed (value source rest : List UInt8)
  | invalidEscape (source : List UInt8) (code : UInt8) (rest : List UInt8)
  | endInEscape (source : List UInt8)
  | unterminated (source : List UInt8)

namespace StringBody

/-- The body with a byte of value and the bytes it was written with in front. -/
def cons (value : UInt8) (written : List UInt8) : StringBody → StringBody
  | closed v source rest => closed (value :: v) (written ++ source) rest
  | invalidEscape source code rest => invalidEscape (written ++ source) code rest
  | endInEscape source => endInEscape (written ++ source)
  | unterminated source => unterminated (written ++ source)

/-- Reads up to the closing quote or the first fault. -/
def scan : List UInt8 → StringBody
  | [] => unterminated []
  | b :: rest =>
    if b = quoteByte then closed [] [] rest
    else if b = backslashByte then
      match rest with
      | [] => endInEscape []
      | code :: rest =>
        match escapedByte? code with
        | some value => (scan rest).cons value [b, code]
        | none => invalidEscape [] code rest
    else (scan rest).cons b [b]

/-- The bytes that were read, and those that follow. -/
def input : StringBody → List UInt8
  | closed _ source rest => source ++ quoteByte :: rest
  | invalidEscape source code rest => source ++ backslashByte :: code :: rest
  | endInEscape source => source ++ [backslashByte]
  | unterminated source => source

/-- One more byte of a string is one more byte of what it was read from. -/
theorem input_cons (value : UInt8) (written : List UInt8) (body : StringBody) :
    (body.cons value written).input = written ++ body.input := by
  cases body <;> simp [cons, input]

/-- The body of a string and what is behind it are all of the input. -/
theorem input_scan : ∀ bytes, (scan bytes).input = bytes
  | [] => rfl
  | b :: rest => by
    rw [scan.eq_def]
    simp only
    split
    · simp_all [input]
    · split
      · cases rest with
        | nil => simp_all [input]
        | cons code rest =>
          simp only
          split
          · simp [input_cons, input_scan rest]
          · simp_all [input]
      · simp [input_cons, input_scan rest]

end StringBody

/-- One token scanned: its kind, the bytes before its span, those of its span, its text, and the bytes behind. -/
structure Scan where
  kind : TokenKind
  skipped : List UInt8
  spanned : List UInt8
  lexeme : String
  rest : List UInt8

namespace Scan

/-- A word that begins with the given byte. -/
def word (first : UInt8) (bytes : List UInt8) : Scan :=
  let written := first :: bytes.takeWhile isWordByte
  let text := asciiText written
  ⟨(TokenKind.ofWord? text).getD (.identifier text), [], written, text, bytes.dropWhile isWordByte⟩

/-- An integer, if it fits. -/
def integerKind (digits : List UInt8) : TokenKind :=
  if h : digitsValue digits < 0x8000000000000000 then .integer ⟨digitsValue digits, h⟩ else .malformed .integerRange

/-- A number that begins with the given digit. A point belongs to it if a digit follows the point. -/
def number (first : UInt8) (bytes : List UInt8) : Scan :=
  let whole := first :: bytes.takeWhile isDigitByte
  match bytes.dropWhile isDigitByte with
  | point :: digit :: rest =>
    if point = pointByte ∧ isDigitByte digit then
      let places := digit :: rest.takeWhile isDigitByte
      let written := whole ++ point :: places
      let value := Binary64.nearest (digitsValue (whole ++ places)) (Nat.pow 10 places.length)
      ⟨.float value, [], written, asciiText written, rest.dropWhile isDigitByte⟩
    else ⟨integerKind whole, [], whole, asciiText whole, point :: digit :: rest⟩
  | rest => ⟨integerKind whole, [], whole, asciiText whole, rest⟩

/-- A string opened at a position by the given quote. A bad escape is placed at its backslash, an unclosed string at its
opening quote. -/
def string (start : Position) (quote : UInt8) (bytes : List UInt8) : Scan :=
  match StringBody.scan bytes with
  | .closed value source rest =>
    let written := quote :: source ++ [quoteByte]
    ⟨.text (lossyText value), [], written, lossyText written, rest⟩
  | .invalidEscape source code rest =>
    let escape := [backslashByte, code]
    ⟨.malformed (.invalidEscape code), quote :: source, escape, lossyText (quote :: source ++ escape), rest⟩
  | .endInEscape source =>
    ⟨.malformed .endInEscape, quote :: source, [backslashByte], lossyText (quote :: source ++ [backslashByte]), []⟩
  | .unterminated source =>
    ⟨.malformed (.unterminated start), [], quote :: source, lossyText (quote :: source), []⟩

/-- A symbol written with one byte, or an unrecognized byte. -/
def single (first : UInt8) (bytes : List UInt8) : Scan :=
  let kind := match Symbol.ofChar? (charOfByte first) with
    | some s => .symbol s
    | none => .malformed .unrecognized
  ⟨kind, [], [first], escapeByte first, bytes⟩

/-- A symbol, the longer one where two bytes make one. -/
def symbol (first : UInt8) (bytes : List UInt8) : Scan :=
  match bytes with
  | [] => single first []
  | second :: rest =>
    match Symbol.ofPair? (charOfByte first) (charOfByte second) with
    | some s => ⟨.symbol s, [], [first, second], asciiText [first, second], rest⟩
    | none => single first (second :: rest)

/-- The token that begins with the given byte, which stands at the given position. -/
def scan (start : Position) (first : UInt8) (bytes : List UInt8) : Scan :=
  if isWordStart first then word first bytes
  else if isDigitByte first then number first bytes
  else if first = quoteByte then string start first bytes
  else symbol first bytes

/-- All bytes of a scan, read and unread. -/
def input (s : Scan) : List UInt8 := s.skipped ++ s.spanned ++ s.rest

/-- A word and what is behind it are all of the input. -/
theorem input_word (first : UInt8) (bytes : List UInt8) : (word first bytes).input = first :: bytes := by
  simp [word, input, List.takeWhile_append_dropWhile]

/-- A number and what is behind it are all of the input. -/
theorem input_number (first : UInt8) (bytes : List UInt8) : (number first bytes).input = first :: bytes := by
  have h := List.takeWhile_append_dropWhile (p := isDigitByte) (l := bytes)
  unfold number
  generalize bytes.takeWhile isDigitByte = more at h ⊢
  generalize bytes.dropWhile isDigitByte = rest at h ⊢
  split
  · split
    · simp [input, ← h, List.takeWhile_append_dropWhile]
    · simp [input, ← h]
  · simp [input, ← h]

/-- A string and what is behind it are all of the input. -/
theorem input_string (start : Position) (bytes : List UInt8) :
    (string start quoteByte bytes).input = quoteByte :: bytes := by
  have h := StringBody.input_scan bytes
  unfold string
  generalize StringBody.scan bytes = body at h
  cases body <;> simp_all [input, StringBody.input]

/-- A single byte and what is behind it are all of the input. -/
theorem input_single (first : UInt8) (bytes : List UInt8) : (single first bytes).input = first :: bytes := by
  simp [single, input]

/-- A symbol and what is behind it are all of the input. -/
theorem input_symbol (first : UInt8) (bytes : List UInt8) : (symbol first bytes).input = first :: bytes := by
  unfold symbol
  split
  · exact input_single _ _
  · split
    · simp [input]
    · exact input_single _ _

/-- A scan loses no byte. -/
theorem input_scan (start : Position) (first : UInt8) (bytes : List UInt8) :
    (scan start first bytes).input = first :: bytes := by
  unfold scan
  split
  · exact input_word _ _
  · split
    · exact input_number _ _
    · split
      · rename_i h
        rw [h]
        exact input_string _ _
      · exact input_symbol _ _

/-- A number has at least its first byte. -/
theorem spanned_number_ne_nil (first : UInt8) (bytes : List UInt8) : (number first bytes).spanned ≠ [] := by
  unfold number
  simp only
  split
  · split <;> simp
  · simp

/-- A string has at least its quote. -/
theorem spanned_string_ne_nil (start : Position) (quote : UInt8) (bytes : List UInt8) :
    (string start quote bytes).spanned ≠ [] := by
  unfold string
  split <;> simp

/-- A symbol has at least its first byte. -/
theorem spanned_symbol_ne_nil (first : UInt8) (bytes : List UInt8) : (symbol first bytes).spanned ≠ [] := by
  unfold symbol
  split
  · simp [single]
  · split <;> simp [single]

/-- Every token covers a byte. -/
theorem spanned_ne_nil (start : Position) (first : UInt8) (bytes : List UInt8) :
    (scan start first bytes).spanned ≠ [] := by
  unfold scan
  split
  · simp [word]
  · split
    · exact spanned_number_ne_nil _ _
    · split
      · exact spanned_string_ne_nil _ _ _
      · exact spanned_symbol_ne_nil _ _

/-- Every scan reads a byte. -/
theorem rest_length_lt (start : Position) (first : UInt8) (bytes : List UInt8) :
    (scan start first bytes).rest.length < (first :: bytes).length := by
  have h := congrArg List.length (input_scan start first bytes)
  have hs := List.length_pos_iff.2 (spanned_ne_nil start first bytes)
  simp only [input, List.length_append] at h
  omega

end Scan

/-- A lexer: where it stands, what it has not read, and whether it has handed out the end of the input. -/
structure Lexer where
  position : Position
  bytes : List UInt8
  finished : Bool
  deriving DecidableEq, Repr

namespace Lexer

/-- The lexer at the start of an input. -/
def ofBytes (bytes : List UInt8) : Lexer := ⟨Position.origin, bytes, false⟩

/-- The next token and the lexer behind it; nothing behind the end of the input. -/
def next (l : Lexer) : Option (Token × Lexer) :=
  if l.finished then none
  else
    let here := l.position.advance (splitGap false l.bytes).1
    match (splitGap false l.bytes).2 with
    | [] => some (⟨.endOfInput, Span.point here, ""⟩, ⟨here, [], true⟩)
    | first :: bytes =>
      let s := Scan.scan here first bytes
      let start := here.advance s.skipped
      let stop := start.advance s.spanned
      some (⟨s.kind, ⟨start, stop⟩, s.lexeme⟩, ⟨stop, s.rest, false⟩)

/-- A bound on the tokens still to come. -/
def size (l : Lexer) : Nat := if l.finished then 0 else l.bytes.length + 1

/-- Every token brings a lexer closer to its end. -/
theorem size_lt_of_next {l l' : Lexer} {t : Token} (h : l.next = some (t, l')) : l'.size < l.size := by
  unfold next at h
  split at h
  · simp at h
  · rename_i hf
    have hg := congrArg List.length (append_splitGap false l.bytes)
    simp only [List.length_append] at hg
    simp only at h
    split at h
    · simp only [Option.some.injEq, Prod.mk.injEq] at h
      obtain ⟨-, rfl⟩ := h
      simp [size, hf]
    · rename_i first bytes hr
      simp only [Option.some.injEq, Prod.mk.injEq] at h
      obtain ⟨-, rfl⟩ := h
      have := Scan.rest_length_lt (l.position.advance (splitGap false l.bytes).1) first bytes
      rw [hr] at hg
      simp only [size, hf]
      simp only [Bool.false_eq_true, if_false]
      omega

/-- The tokens a lexer still hands out. -/
def tokens (l : Lexer) : List Token :=
  match _h : l.next with
  | none => []
  | some (t, l') => t :: l'.tokens
termination_by l.size
decreasing_by exact size_lt_of_next ‹_›

end Lexer

/-- A lexical fault and where it is. -/
structure LexError where
  fault : LexFault
  position : Position
  deriving DecidableEq, Repr

/-- The text of a lexical error. -/
def LexError.text (e : LexError) : String := e.fault.message ++ " at " ++ e.position.text

/-- A list of tokens, unless one is malformed. -/
def wellFormedTokens : List Token → Except LexError (List Token)
  | [] => .ok []
  | t :: rest =>
    match t.kind with
    | .malformed fault => .error ⟨fault, t.span.start⟩
    | _ => (wellFormedTokens rest).map (t :: ·)

/-- The tokens of a source text up to its end, or its first lexical error. -/
def tokenize (bytes : List UInt8) : Except LexError (List Token) := wellFormedTokens (Lexer.ofBytes bytes).tokens

end RegisterCompiler
