import Mathlib
import RegisterCompiler.Source.Lexer
import RegisterCompiler.Proofs.Lexing.Utf8

/-!
# The texts of tokens

`Lexeme` says which texts are tokens and of which kind: words, integers, decimal fractions, strings and symbols, each by the
characters it may consist of. It knows nothing of the lexer, of positions or of what stands around a token. Except inside a
string every character of a token is a single byte, so its characters are those of its bytes (`exists_bytes`), and classes of
characters are compared with classes of bytes once, here.
-/

namespace RegisterCompiler

/-- The character that opens and closes a string. -/
def quoteChar : Char := charOfByte quoteByte

/-- The character that begins an escape. -/
def backslashChar : Char := charOfByte backslashByte

/-- A character that may begin a word. -/
def isWordStartChar (c : Char) : Bool := c.isAlpha || c == '_'

/-- A character that may stand inside a word. -/
def isWordChar (c : Char) : Bool := c.isAlphanum || c == '_'

/-- What may stand behind a backslash, and the character it stands for. -/
def escapes : List (Char × Char) :=
  [(backslashChar, backslashChar), (quoteChar, quoteChar), ('0', '\x00'), ('r', '\r'), ('n', '\n'), ('t', '\t')]

/-- What stands between the quotes of a string, and the text it stands for. -/
inductive Quoted : List Char → List Char → Prop
  | nil : Quoted [] []
  | plain {c : Char} {written value : List Char} :
      c ≠ quoteChar → c ≠ backslashChar → Quoted written value → Quoted (c :: written) (c :: value)
  | escape {code c : Char} {written value : List Char} :
      (code, c) ∈ escapes → Quoted written value → Quoted (backslashChar :: code :: written) (c :: value)

/-- The text of a token, and the token's kind. -/
inductive Lexeme : List Char → TokenKind → Prop
  /-- A word is reserved or an identifier. -/
  | word {first : Char} {rest : List Char} : isWordStartChar first → (∀ c ∈ rest, isWordChar c) →
      Lexeme (first :: rest)
        ((TokenKind.ofWord? (String.ofList (first :: rest))).getD (.identifier (String.ofList (first :: rest))))
  | integer {digits : List Char} (h : Nat.ofDigitChars 10 digits 0 < 0x8000000000000000) :
      digits ≠ [] → (∀ c ∈ digits, c.isDigit) → Lexeme digits (.integer ⟨Nat.ofDigitChars 10 digits 0, h⟩)
  /-- Digits on both sides of the point; the value is the binary number nearest to the fraction. -/
  | fraction {whole places : List Char} : whole ≠ [] → (∀ c ∈ whole, c.isDigit) → places ≠ [] → (∀ c ∈ places, c.isDigit) →
      Lexeme (whole ++ '.' :: places)
        (.float (Binary64.nearest (Nat.ofDigitChars 10 (whole ++ places) 0) (10 ^ places.length)))
  | string {written value : List Char} : Quoted written value →
      Lexeme (quoteChar :: written ++ [quoteChar]) (.text (String.ofList value))
  | symbol (s : Symbol) : Lexeme s.spelling.toList (.symbol s)

/-! ## Characters of one byte -/

/-- What holds of the bytes with the first 256 numbers holds of all. -/
@[elab_as_elim]
theorem forall_byte {motive : UInt8 → Prop} (h : ∀ n < 256, motive (UInt8.ofNat n)) (b : UInt8) : motive b := by
  have hb := h _ b.toNat_lt
  rwa [UInt8.ofNat_toNat] at hb

/-- The character of a byte has its number. -/
theorem toNat_charOfByte (b : UInt8) : (charOfByte b).toNat = b.toNat := forall_byte (by decide +kernel) b

/-- Bytes with one character are equal. -/
theorem charOfByte_injective {a b : UInt8} (h : charOfByte a = charOfByte b) : a = b := by
  apply UInt8.toNat_inj.1
  rw [← toNat_charOfByte, h, toNat_charOfByte]

/-- The character of an ASCII byte is encoded as the byte. -/
theorem encodeChar_charOfByte {b : UInt8} (h : b < 0x80) : String.utf8EncodeChar (charOfByte b) = [b] := by
  have hn : b.toNat < 0x80 := h
  rw [encodeChar_ascii (by rwa [toNat_charOfByte]), toNat_charOfByte, UInt8.ofNat_toNat]

/-- The characters of ASCII bytes are encoded as the bytes. -/
theorem encode_map_charOfByte {bytes : List UInt8} (h : ∀ b ∈ bytes, b < 0x80) : encode (bytes.map charOfByte) = bytes := by
  induction bytes with
  | nil => rfl
  | cons b bytes ih =>
    rw [List.forall_mem_cons] at h
    rw [List.map_cons, encode_cons, encodeChar_charOfByte h.1, ih h.2]
    rfl

/-- A character below 0x100 is that of its byte. -/
theorem charOfByte_ofNat {c : Char} (h : c.toNat < 0x100) : charOfByte (UInt8.ofNat c.toNat) = c := by
  rw [charOfByte, UInt8.toNat_ofNat', Nat.mod_eq_of_lt h, Char.ofNat_toNat]

/-- The byte of an ASCII character is ASCII. -/
theorem ofNat_lt_of_ascii {c : Char} (h : c.toNat < 0x80) : UInt8.ofNat c.toNat < 0x80 := by
  rw [UInt8.lt_iff_toNat_lt, UInt8.toNat_ofNat', Nat.mod_eq_of_lt (by omega)]
  exact h

/-- Characters below 0x80 are those of their bytes. -/
theorem exists_bytes {chars : List Char} (h : ∀ c ∈ chars, c.toNat < 0x80) :
    ∃ bytes : List UInt8, chars = bytes.map charOfByte ∧ ∀ b ∈ bytes, b < 0x80 := by
  refine ⟨chars.map fun c => UInt8.ofNat c.toNat, ?_, ?_⟩
  · rw [List.map_map]
    conv_lhs => rw [← List.map_id chars]
    exact List.map_congr_left fun c hc => (charOfByte_ofNat ((h c hc).trans (by decide))).symm
  · simp only [List.forall_mem_map]
    exact fun c hc => ofNat_lt_of_ascii (h c hc)

/-- A byte below 0x80 stands for one character only and is part of no other. -/
theorem not_mem_encodeChar {c : Char} {b : UInt8} (hb : b < 0x80) (h : c ≠ charOfByte b) : b ∉ String.utf8EncodeChar c := by
  intro hm
  rcases Nat.lt_or_ge c.toNat 0x80 with hc | hc
  · rw [encodeChar_ascii hc, List.mem_singleton] at hm
    exact h (by rw [hm, charOfByte_ofNat (hc.trans (by decide))])
  · obtain ⟨x, more, hx, hw⟩ := encodeChar_wide hc
    exact absurd hb (UInt8.not_lt.2 (hw b (hx ▸ hm)))

/-- Bytes below 0x80 at the start of a text are its first characters. -/
theorem exists_of_encode_eq_append {chars : List Char} {ascii rest : List UInt8} (ha : ∀ b ∈ ascii, b < 0x80)
    (h : encode chars = ascii ++ rest) : ∃ more, chars = ascii.map charOfByte ++ more ∧ encode more = rest := by
  induction ascii generalizing chars with
  | nil => exact ⟨chars, rfl, h⟩
  | cons b ascii ih =>
    rw [List.forall_mem_cons] at ha
    cases chars with
    | nil => simp at h
    | cons c chars =>
      rw [encode_cons] at h
      rcases Nat.lt_or_ge c.toNat 0x80 with hc | hc
      · rw [encodeChar_ascii hc] at h
        obtain ⟨hb, h⟩ : UInt8.ofNat c.toNat = b ∧ encode chars = ascii ++ rest := List.cons_eq_cons.1 h
        obtain ⟨more, rfl, hm⟩ := ih ha.2 h
        exact ⟨more, by rw [List.map_cons, ← hb, charOfByte_ofNat (hc.trans (by decide))]; rfl, hm⟩
      · obtain ⟨x, more, hx, hw⟩ := encodeChar_wide hc
        rw [hx] at h
        obtain ⟨rfl, -⟩ := List.cons_eq_cons.1 h
        exact absurd ha.1 (UInt8.not_lt.2 (hw x List.mem_cons_self))

/-! ## Classes of characters and classes of bytes -/

/-- A byte begins a word exactly if its character does. -/
theorem isWordStartChar_charOfByte (b : UInt8) : isWordStartChar (charOfByte b) = isWordStart b :=
  forall_byte (by decide +kernel) b

/-- A byte belongs to a word exactly if its character does. -/
theorem isWordChar_charOfByte (b : UInt8) : isWordChar (charOfByte b) = isWordByte b := forall_byte (by decide +kernel) b

/-- A byte is a digit exactly if its character is. -/
theorem isDigit_charOfByte (b : UInt8) : (charOfByte b).isDigit = isDigitByte b := forall_byte (by decide +kernel) b

/-- One step along a chain of conditions. -/
theorem eq_of_ite_eq_some {α : Type} {p : Prop} [Decidable p] {x y : α} {rest : Option α}
    (h : (if p then some x else rest) = some y) : p ∧ x = y ∨ rest = some y := by
  split at h
  · exact .inl ⟨‹p›, Option.some.inj h⟩
  · exact .inr h

/-- The characters of words are ASCII. -/
theorem toNat_lt_of_isWordChar {c : Char} (h : isWordChar c = true) : c.toNat < 0x80 := by
  simp only [isWordChar, Char.isAlphanum, Char.isAlpha, Char.isUpper, Char.isLower, Char.isDigit, Bool.or_eq_true,
    Bool.and_eq_true, decide_eq_true_eq, beq_iff_eq, UInt32.le_iff_toNat_le, ge_iff_le] at h
  rcases h with ((h | h) | h) | rfl
  · exact Nat.lt_of_le_of_lt h.2 (by decide)
  · exact Nat.lt_of_le_of_lt h.2 (by decide)
  · exact Nat.lt_of_le_of_lt h.2 (by decide)
  · decide

/-- What begins a word belongs to it. -/
theorem isWordChar_of_isWordStartChar {c : Char} (h : isWordStartChar c = true) : isWordChar c = true := by
  simp only [isWordStartChar, Bool.or_eq_true] at h
  simp only [isWordChar, Char.isAlphanum, Bool.or_eq_true]
  exact h.imp .inl id

/-- Digits belong to words. -/
theorem isWordChar_of_isDigit {c : Char} (h : c.isDigit = true) : isWordChar c = true := by
  rw [isWordChar, Char.isAlphanum, h, Bool.or_true, Bool.true_or]

/-- A byte that begins a word belongs to it. -/
theorem isWordByte_of_isWordStart {b : UInt8} (h : isWordStart b = true) : isWordByte b = true := by
  rw [isWordByte, h, Bool.true_or]

/-- The byte of a digit belongs to words. -/
theorem isWordByte_of_isDigitByte {b : UInt8} (h : isDigitByte b = true) : isWordByte b = true := by
  rw [isWordByte, h, Bool.or_true]

/-- The bytes of words are ASCII. -/
theorem lt_of_isWordByte {b : UInt8} (h : isWordByte b = true) : b < 0x80 := by
  revert h
  exact forall_byte (by decide +kernel) b

/-- No digit begins a word. -/
theorem not_isWordStart_of_isDigitByte {b : UInt8} (h : isDigitByte b = true) : isWordStart b = false := by
  revert h
  exact forall_byte (by decide +kernel) b

/-- What an escape stands for, by bytes. -/
theorem mem_escapes_of_escapedByte {code value : UInt8} (h : escapedByte? code = some value) :
    (charOfByte code, charOfByte value) ∈ escapes ∧ code < 0x80 ∧ value < 0x80 := by
  unfold escapedByte? at h
  rcases eq_of_ite_eq_some h with ⟨rfl | rfl, rfl⟩ | h
  · decide
  · decide
  repeat (rcases eq_of_ite_eq_some h with ⟨rfl, rfl⟩ | h; · decide)
  cases h

/-- The escapes of characters are those of their bytes. -/
theorem escapedByte_of_mem_escapes {code c : Char} (h : (code, c) ∈ escapes) :
    ∃ b v, code = charOfByte b ∧ c = charOfByte v ∧ escapedByte? b = some v := by
  simp only [escapes, List.mem_cons, Prod.mk.injEq, List.not_mem_nil, or_false] at h
  rcases h with ⟨rfl, rfl⟩ | ⟨rfl, rfl⟩ | ⟨rfl, rfl⟩ | ⟨rfl, rfl⟩ | ⟨rfl, rfl⟩ | ⟨rfl, rfl⟩
  · exact ⟨backslashByte, backslashByte, rfl, rfl, by decide⟩
  · exact ⟨quoteByte, quoteByte, rfl, rfl, by decide⟩
  · exact ⟨0x30, 0x00, by decide, by decide, by decide⟩
  · exact ⟨0x72, 0x0D, by decide, by decide, by decide⟩
  · exact ⟨0x6E, 0x0A, by decide, by decide, by decide⟩
  · exact ⟨0x74, 0x09, by decide, by decide, by decide⟩

/-! ## Symbols -/

/-- An operation has the character that it is read from. -/
theorem char_of_ofChar {a : Char} {op : Operation} (h : Operation.ofChar? a = some op) : op.char = a := by
  simpa using List.find?_some h

/-- A pair of characters read as a symbol is what the symbol is written with. -/
theorem spelling_of_ofPair {a b : Char} {s : Symbol} (h : Symbol.ofPair? a b = some s) : s.spelling.toList = [a, b] := by
  unfold Symbol.ofPair? at h
  by_cases hb : b = '='
  · rw [if_pos hb] at h
    subst b
    cases hop : Operation.ofChar? a with
    | some op =>
      rw [hop] at h
      obtain rfl : Symbol.update op = s := Option.some.inj h
      show (op.symbol ++ "=").toList = _
      rw [String.toList_append, Operation.symbol, char_of_ofChar hop, String.toList_singleton]
      rfl
    | none =>
      rw [hop] at h
      repeat (rcases eq_of_ite_eq_some h with ⟨rfl, rfl⟩ | h; · rfl)
      cases h
  · rw [if_neg hb] at h
    repeat (rcases eq_of_ite_eq_some h with ⟨⟨rfl, rfl⟩, rfl⟩ | h; · rfl)
    cases h

/-- A character read as a symbol is what the symbol is written with. -/
theorem spelling_of_ofChar {a : Char} {s : Symbol} (h : Symbol.ofChar? a = some s) : s.spelling.toList = [a] := by
  unfold Symbol.ofChar? at h
  cases hop : Operation.ofChar? a with
  | some op =>
    rw [hop] at h
    obtain rfl : Symbol.operation op = s := Option.some.inj h
    show op.symbol.toList = _
    rw [Operation.symbol, char_of_ofChar hop, String.toList_singleton]
  | none =>
    rw [hop] at h
    repeat (rcases eq_of_ite_eq_some h with ⟨rfl, rfl⟩ | h; · rfl)
    cases h

/-- Every symbol is written with one character or two, single bytes, and read back from them. -/
theorem ofChar_or_ofPair (s : Symbol) :
    (∃ a, s.spelling.toList = [a] ∧ a.toNat < 0x80 ∧ Symbol.ofChar? a = some s) ∨
      ∃ a b, s.spelling.toList = [a, b] ∧ (a.toNat < 0x80 ∧ b.toNat < 0x80) ∧ Symbol.ofPair? a b = some s := by
  cases s
  case operation op => cases op <;> exact .inl ⟨_, rfl, by decide, by decide⟩
  case update op => cases op <;> exact .inr ⟨_, _, rfl, by decide, by decide⟩
  case comparison c =>
    cases c <;> first | exact .inl ⟨_, rfl, by decide, by decide⟩ | exact .inr ⟨_, _, rfl, by decide, by decide⟩
  all_goals first | exact .inl ⟨_, rfl, by decide, by decide⟩ | exact .inr ⟨_, _, rfl, by decide, by decide⟩

/-- A character that may begin a symbol. -/
def isSymbolStart (a : Char) : Bool := (Symbol.ofChar? a).isSome || a == '!'

/-- The first character of a long symbol begins symbols, and the second one is one of three. -/
theorem isSymbolStart_of_ofPair {a b : Char} {s : Symbol} (h : Symbol.ofPair? a b = some s) :
    isSymbolStart a = true ∧ (b = '=' ∨ b = '<' ∨ b = '>') := by
  unfold Symbol.ofPair? at h
  by_cases hb : b = '='
  · rw [if_pos hb] at h
    subst b
    cases hop : Operation.ofChar? a with
    | some op => exact ⟨by rw [isSymbolStart, Symbol.ofChar?, hop]; rfl, .inl rfl⟩
    | none =>
      rw [hop] at h
      repeat (rcases eq_of_ite_eq_some h with ⟨rfl, rfl⟩ | h; · exact ⟨by decide, .inl rfl⟩)
      cases h
  · rw [if_neg hb] at h
    rcases eq_of_ite_eq_some h with ⟨⟨rfl, rfl⟩, rfl⟩ | h
    · exact ⟨by decide, .inr (.inl rfl)⟩
    rcases eq_of_ite_eq_some h with ⟨⟨rfl, rfl⟩, rfl⟩ | h
    · exact ⟨by decide, .inr (.inr rfl)⟩
    cases h

/-- The character of a symbol begins symbols. -/
theorem isSymbolStart_of_ofChar {a : Char} {s : Symbol} (h : Symbol.ofChar? a = some s) : isSymbolStart a = true := by
  rw [isSymbolStart, h]
  rfl

/-- A byte that begins a symbol begins nothing else. -/
theorem class_of_isSymbolStart {b : UInt8} (h : isSymbolStart (charOfByte b) = true) :
    b < 0x80 ∧ isWordStart b = false ∧ isDigitByte b = false ∧ b ≠ quoteByte ∧ isBlank b = false := by
  revert h
  exact forall_byte (by decide +kernel) b

/-- The second byte of a symbol is below 0x80 as well. -/
theorem lt_of_ofPair {first second : UInt8} {s : Symbol}
    (h : Symbol.ofPair? (charOfByte first) (charOfByte second) = some s) : second < 0x80 := by
  have toByte {b : UInt8} (hb : b < 0x80) (h : charOfByte second = charOfByte b) : second < 0x80 := by
    rw [charOfByte_injective h]
    exact hb
  rcases (isSymbolStart_of_ofPair h).2 with h | h | h
  · exact toByte (b := 0x3D) (by decide) h
  · exact toByte (b := 0x3C) (by decide) h
  · exact toByte (b := 0x3E) (by decide) h

/-- A byte that is a symbol is printed as it is. -/
theorem escapeByte_of_ofChar {b : UInt8} {s : Symbol} (h : Symbol.ofChar? (charOfByte b) = some s) :
    escapeByte b = asciiText [b] := by
  have printable : (Symbol.ofChar? (charOfByte b)).isSome →
      (0x20 ≤ b ∧ b ≤ 0x7E) ∧ b ≠ 0x27 ∧ b ≠ 0x22 ∧ b ≠ 0x5C := forall_byte (by decide +kernel) b
  obtain ⟨hr, h1, h2, h3⟩ := printable (by rw [h]; rfl)
  have h4 : b ≠ 0x09 := by rintro rfl; exact absurd hr (by decide)
  have h5 : b ≠ 0x0D := by rintro rfl; exact absurd hr (by decide)
  have h6 : b ≠ 0x0A := by rintro rfl; exact absurd hr (by decide)
  rw [escapeByte, if_neg h4, if_neg h5, if_neg h6, if_neg h1, if_neg h2, if_neg h3, if_pos hr, String.singleton_eq_ofList]
  rfl

end RegisterCompiler
