import RegisterCompiler.Program.Printer
import RegisterCompiler.Proofs.Listing.Names

/-!
# Words of a printed line

A printed line consists of words with a space behind each of them: plain words, which have no space, and texts in quotes, which may
have some. A text in quotes ends where its escaped bytes end, because no escaped byte begins with a quote (`escapeBytes_quote_inj`),
and so the words of a line are known from its characters (`spaced_injective`). Registers and numbers are known from their words
(`Value.ofText_text`).
-/

namespace RegisterCompiler

/-! ## Escaped bytes -/

/-- The value of a lower-case hexadecimal digit. -/
def hexValue (c : Char) : Nat := if c.isDigit then c.toNat - 48 else c.toNat - 87

/-- The byte behind a backslash. -/
def unescaped (code : Char) : UInt8 :=
  if code = 't' then 0x09 else if code = 'r' then 0x0D else if code = 'n' then 0x0A else UInt8.ofNat code.toNat

/-- The first byte of an escaped text, and what follows it; a quote ends the text. -/
def unescape : List Char → Option (UInt8 × List Char)
  | '\\' :: 'x' :: high :: low :: rest => some (UInt8.ofNat (16 * hexValue high + hexValue low), rest)
  | '\\' :: code :: rest => if code = 'x' then none else some (unescaped code, rest)
  | c :: rest => if c = '\\' ∨ c = '"' then none else some (UInt8.ofNat c.toNat, rest)
  | [] => none

/-- A byte is read back from its escaped form. -/
theorem unescape_escapeByte (b : UInt8) : unescape (escapeByte b).toList = some (b, []) := forall_byte (by decide +kernel) b

/-- An escaped byte holds no line feed. -/
theorem newline_notMem_escapeByte (b : UInt8) : '\n' ∉ (escapeByte b).toList := forall_byte (by decide +kernel) b

/-- Where a byte is all that was escaped, it is the first one of a longer text too. -/
theorem unescape_append {w : List Char} {b : UInt8} (h : unescape w = some (b, [])) (rest : List Char) :
    unescape (w ++ rest) = some (b, rest) := by
  unfold unescape at h
  split at h
  · obtain ⟨rfl, rfl⟩ := Prod.mk.inj (Option.some.inj h)
    rfl
  · rename_i code behind hx
    split at h
    · cases h
    · rename_i hcode
      obtain ⟨rfl, rfl⟩ := Prod.mk.inj (Option.some.inj h)
      simp [unescape, hcode]
  · rename_i c behind _ _
    split at h
    · cases h
    · rename_i hc
      obtain ⟨rfl, rfl⟩ := Prod.mk.inj (Option.some.inj h)
      simp only [not_or] at hc
      simp [unescape, hc]
  · cases h

/-- An escaped text ends at the first quote that is not escaped. -/
theorem escapeBytes_quote_inj {a b : List UInt8} {x y : List Char}
    (h : (escapeBytes a).toList ++ '"' :: x = (escapeBytes b).toList ++ '"' :: y) : a = b ∧ x = y := by
  have hnil (rest : List Char) : unescape ((escapeBytes []).toList ++ '"' :: rest) = none := rfl
  have hcons (c : UInt8) (bytes : List UInt8) (rest : List Char) :
      unescape ((escapeBytes (c :: bytes)).toList ++ '"' :: rest) = some (c, (escapeBytes bytes).toList ++ '"' :: rest) := by
    rw [escapeBytes, String.toList_append, List.append_assoc]
    exact unescape_append (unescape_escapeByte c) _
  induction a generalizing b with
  | nil =>
    cases b with
    | nil => exact ⟨rfl, List.tail_eq_of_cons_eq h⟩
    | cons c b =>
      have hread := congrArg unescape h
      rw [hnil, hcons] at hread
      cases hread
  | cons c a ih =>
    cases b with
    | nil =>
      have hread := congrArg unescape h
      rw [hnil, hcons] at hread
      cases hread
    | cons d b =>
      have hread := congrArg unescape h
      rw [hcons, hcons] at hread
      obtain ⟨rfl, hrest⟩ := Prod.mk.inj (Option.some.inj hread)
      obtain ⟨rfl, hxy⟩ := ih hrest
      exact ⟨rfl, hxy⟩

/-- An escaped text holds no line feed. -/
theorem newline_notMem_escapeBytes (bytes : List UInt8) : '\n' ∉ (escapeBytes bytes).toList := by
  induction bytes with
  | nil => exact List.not_mem_nil
  | cons b rest ih =>
    rw [escapeBytes, String.toList_append, List.mem_append, not_or]
    exact ⟨newline_notMem_escapeByte b, ih⟩

/-- A text is known from its bytes. -/
theorem utf8Bytes_injective {a b : String} (h : utf8Bytes a = utf8Bytes b) : a = b := by
  rw [utf8Bytes_eq_encode, utf8Bytes_eq_encode] at h
  exact String.toList_inj.1 (encode_injective h)

/-! ## Words -/

/-- A list is known up to an element that it does not have. -/
theorem append_cons_inj {α : Type} {c : α} {a b x y : List α} (ha : c ∉ a) (hb : c ∉ b) (h : a ++ c :: x = b ++ c :: y) :
    a = b ∧ x = y := by
  induction a generalizing b with
  | nil =>
    cases b with
    | nil => exact ⟨rfl, List.tail_eq_of_cons_eq h⟩
    | cons d b => exact absurd (List.head_eq_of_cons_eq h ▸ List.mem_cons_self) hb
  | cons d a ih =>
    rw [List.mem_cons, not_or] at ha
    cases b with
    | nil => exact absurd (List.head_eq_of_cons_eq h).symm ha.1
    | cons e b =>
      rw [List.mem_cons, not_or] at hb
      obtain ⟨rfl, hrest⟩ := List.cons.inj h
      obtain ⟨rfl, hxy⟩ := ih ha.2 hb.2 hrest
      exact ⟨rfl, hxy⟩

/-- A word of a printed line: a plain one, or a text in quotes. -/
inductive Word where
  | plain (text : String)
  | quoted (text : String)
  deriving DecidableEq, Repr

/-- A text without spaces, line feeds and quotes. -/
def Plain (text : String) : Prop := ∀ c ∈ text.toList, c ≠ ' ' ∧ c ≠ '\n' ∧ c ≠ '"'

instance (text : String) : Decidable (Plain text) := List.decidableBAll (fun c => c ≠ ' ' ∧ c ≠ '\n' ∧ c ≠ '"') text.toList

/-- Plain texts one behind the other are plain. -/
theorem Plain.append {a b : String} (ha : Plain a) (hb : Plain b) : Plain (a ++ b) := by
  intro c hc
  rw [String.toList_append, List.mem_append] at hc
  exact hc.elim (ha c) (hb c)

/-- The text of a word is plain. -/
theorem plain_of_isWordText {text : String} (h : IsWordText text) : Plain text := by
  intro c hc
  refine ⟨?_, ?_, ?_⟩ <;>
  · rintro rfl
    exact absurd (h _ hc) (by decide)

namespace Word

/-- The characters of a word. -/
def chars : Word → List Char
  | plain text => text.toList
  | quoted text => '"' :: (escapeText text).toList ++ ['"']

/-- A plain word is plain. -/
def Proper : Word → Prop
  | plain text => Plain text
  | quoted _ => True

/-- A proper word holds no line feed. -/
theorem newline_notMem_chars {w : Word} (h : w.Proper) : '\n' ∉ w.chars := by
  cases w with
  | plain text => exact fun hmem => (h _ hmem).2.1 rfl
  | quoted text =>
    have hescaped := newline_notMem_escapeBytes (utf8Bytes text)
    simp [chars, escapeText, hescaped]

/-- No plain word begins like a text in quotes. -/
theorem plain_ne_quoted {text : String} (h : Plain text) {x y : List Char} : text.toList ++ ' ' :: x ≠ '"' :: y := by
  intro heq
  cases hchars : text.toList with
  | nil =>
    rw [hchars] at heq
    cases heq
  | cons c cs =>
    rw [hchars] at heq
    obtain rfl : c = '"' := List.head_eq_of_cons_eq heq
    exact (h '"' (hchars ▸ List.mem_cons_self)).2.2 rfl

/-- A word ends where its characters say. -/
theorem chars_space_inj {v w : Word} (hv : v.Proper) (hw : w.Proper) {x y : List Char}
    (h : v.chars ++ ' ' :: x = w.chars ++ ' ' :: y) : v = w ∧ x = y := by
  cases v with
  | plain a =>
    cases w with
    | plain b =>
      obtain ⟨hab, hxy⟩ := append_cons_inj (fun hmem => (hv _ hmem).1 rfl) (fun hmem => (hw _ hmem).1 rfl) h
      exact ⟨congrArg plain (String.toList_inj.1 hab), hxy⟩
    | quoted b => exact absurd h (plain_ne_quoted hv)
  | quoted a =>
    cases w with
    | plain b => exact absurd h.symm (plain_ne_quoted hw)
    | quoted b =>
      simp only [chars, List.cons_append, List.append_assoc, List.nil_append] at h
      obtain ⟨hab, hxy⟩ := escapeBytes_quote_inj (List.tail_eq_of_cons_eq h)
      exact ⟨congrArg quoted (utf8Bytes_injective hab), List.tail_eq_of_cons_eq hxy⟩

end Word

/-- Words with a space behind each of them. -/
def spaced (words : List Word) : List Char := words.flatMap fun w => w.chars ++ [' ']

theorem spaced_cons (w : Word) (words : List Word) : spaced (w :: words) = w.chars ++ ' ' :: spaced words := by simp [spaced]

/-- Words with spaces behind them, one list behind the other. -/
theorem spaced_append (v w : List Word) : spaced (v ++ w) = spaced v ++ spaced w := List.flatMap_append

/-- Words are known from their characters. -/
theorem spaced_injective {vs ws : List Word} (hv : ∀ v ∈ vs, v.Proper) (hw : ∀ w ∈ ws, w.Proper) (h : spaced vs = spaced ws) :
    vs = ws := by
  induction vs generalizing ws with
  | nil =>
    cases ws with
    | nil => rfl
    | cons w ws => simp [spaced] at h
  | cons v vs ih =>
    cases ws with
    | nil => simp [spaced] at h
    | cons w ws =>
      rw [List.forall_mem_cons] at hv hw
      rw [spaced_cons, spaced_cons] at h
      obtain ⟨rfl, hrest⟩ := Word.chars_space_inj hv.1 hw.1 h
      rw [ih hv.2 hw.2 hrest]

/-- Proper words with spaces behind them hold no line feed. -/
theorem newline_notMem_spaced {words : List Word} (h : ∀ w ∈ words, w.Proper) : '\n' ∉ spaced words := by
  intro hmem
  obtain ⟨w, hw, hc⟩ := List.mem_flatMap.1 hmem
  rcases List.mem_append.1 hc with hc | hc
  · exact Word.newline_notMem_chars (h w hw) hc
  · simp at hc

/-! ## Registers, numbers and operators -/

/-- The number that a word writes in decimal digits, with its sign. -/
def readNumber : List Char → Int
  | '-' :: digits => -(Nat.ofDigitChars 10 digits 0 : Int)
  | digits => (Nat.ofDigitChars 10 digits 0 : Int)

/-- A number is written in digits, behind a sign where it is negative. -/
theorem toList_toString (i : Int) :
    (toString i).toList = if i < 0 then '-' :: Nat.toDigits 10 i.natAbs else Nat.toDigits 10 i.natAbs := by
  cases i with
  | ofNat n =>
    have htext : toString (Int.ofNat n) = toString n := rfl
    have hsign : ¬Int.ofNat n < 0 := Int.not_lt.2 (Int.natCast_nonneg n)
    rw [if_neg hsign, htext, Nat.toString_eq_ofList_toDigits, String.toList_ofList]
    rfl
  | negSucc n =>
    have htext : toString (Int.negSucc n) = "-" ++ toString (n + 1) := rfl
    rw [if_pos (Int.negSucc_lt_zero n), htext, Nat.toString_eq_ofList_toDigits]
    simp

/-- A number is written with digits and a minus. -/
theorem isDigit_or_of_mem_toString {i : Int} {c : Char} (h : c ∈ (toString i).toList) : c.isDigit = true ∨ c = '-' := by
  have hdigit (hc : c ∈ Nat.toDigits 10 i.natAbs) := Nat.isDigit_of_mem_toDigits (by decide) (by decide) hc
  rw [toList_toString] at h
  split at h
  · exact (List.mem_cons.1 h).symm.imp_left hdigit
  · exact Or.inl (hdigit h)

/-- A number is read back from its decimal digits. -/
theorem readNumber_toString (i : Int) : readNumber (toString i).toList = i := by
  rw [toList_toString]
  split
  · rw [readNumber, Nat.ofDigitChars_ten_toDigits]
    omega
  · -- the first digit is no sign
    have hhead : ∀ digits, Nat.toDigits 10 i.natAbs ≠ '-' :: digits := by
      intro digits hdigits
      have := Nat.isDigit_of_mem_toDigits (b := 10) (n := i.natAbs) (c := '-') (by decide) (by decide)
        (hdigits ▸ List.mem_cons_self)
      exact absurd this (by decide)
    rw [readNumber]
    · rw [Nat.ofDigitChars_ten_toDigits]
      omega
    · exact hhead

/-- A register is read back from its name. -/
theorem Register.ofName?_name (r : Register) : ofName? r.name = some r := by cases r <;> decide

/-- The name of a register is plain. -/
theorem Register.plain_name (r : Register) : Plain r.name := by cases r <;> decide

/-- The operand that a word writes. -/
def Value.ofText (word : String) : Value :=
  match Register.ofName? word with
  | some r => .register r
  | none => .immediate (Int64.ofInt (readNumber word.toList))

/-- No number is written like a register. -/
theorem Register.ofName?_toString (i : Int) : ofName? (toString i) = none := by
  cases h : ofName? (toString i) with
  | none => rfl
  | some r =>
    have hname : r.name = toString i := by simpa [ofName?] using List.find?_some h
    have hr : 'r' ∈ r.name.toList := by cases r <;> decide
    rw [hname] at hr
    exact absurd (isDigit_or_of_mem_toString hr) (by decide)

/-- An operand is read back from its text. -/
theorem Value.ofText_text (v : Value) : ofText v.text = v := by
  cases v with
  | register r => rw [text, ofText, Register.ofName?_name]
  | immediate n => rw [text, ofText, Register.ofName?_toString, readNumber_toString, Int64.ofInt_toInt]

/-- The text of an operand is plain. -/
theorem Value.plain_text (v : Value) : Plain v.text := by
  cases v with
  | register r => exact r.plain_name
  | immediate n =>
    intro c hc
    rcases isDigit_or_of_mem_toString hc with hdigit | rfl
    · refine ⟨?_, ?_, ?_⟩ <;>
      · rintro rfl
        exact absurd hdigit (by decide)
    · decide

end RegisterCompiler
