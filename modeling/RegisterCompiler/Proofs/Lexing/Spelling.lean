import Mathlib
import RegisterCompiler.Proofs.Lexing.Lexeme

/-!
# Writing a token

`Spelled kind lexeme` says how a token is written, without asking the lexer: an integer in decimal behind any number of zeros,
a text between quotes, keywords, registers and symbols by their names, and an identifier as a word that is none of the
`reservedWords`. Fractions, the end of the input and faults are not written. What is written for a kind is the text of a token
of that kind (`Spelled.lexeme`); for identifiers that is to say that the lexer reserves no other words
(`TokenKind.ofWord_eq_none`).
-/

namespace RegisterCompiler

/-- A number in decimal behind some zeros. -/
def numeral (zeros n : Nat) : List Char := List.replicate zeros '0' ++ Nat.toDigits 10 n

/-- The name of a vector register. -/
def vectorRegisterName (n : Fin 16) : String := "xmm" ++ toString n.val

/-- The name of a vector register with a plus sign, and some zeros, in front of its number. -/
def signedName (zeros : Nat) (n : Fin 16) : String := "xmm+" ++ String.ofList (numeral zeros n.val)

/-- The names of keywords, registers and vector registers. -/
def reservedWords : List String :=
  Keyword.all.map Keyword.spelling ++ Register.all.map Register.name ++ (List.finRange 16).map vectorRegisterName

/-- A letter or an underscore, then letters, digits and underscores. -/
def isWord (word : String) : Bool :=
  match word.toList with
  | [] => false
  | first :: rest => isWordStartChar first && rest.all isWordChar

/-- How a token of a kind is written. -/
inductive Spelled : TokenKind → List Char → Prop
  | integer (zeros : Nat) (n : Fin 0x8000000000000000) : Spelled (.integer n) (numeral zeros n)
  | text {written value : List Char} : Quoted written value →
      Spelled (.text (String.ofList value)) (quoteChar :: written ++ [quoteChar])
  | identifier {word : String} : isWord word → word ∉ reservedWords → Spelled (.identifier word) word.toList
  | register (r : Register) : Spelled (.register r) r.name.toList
  | vectorRegister (n : Fin 16) : Spelled (.vectorRegister n) (vectorRegisterName n).toList
  | keyword (k : Keyword) : Spelled (.keyword k) k.spelling.toList
  | symbol (s : Symbol) : Spelled (.symbol s) s.spelling.toList

/-! ## Numerals -/

/-- A numeral has a digit. -/
theorem numeral_ne_nil (zeros n : Nat) : numeral zeros n ≠ [] := by
  simp [numeral, Nat.toDigits_ne_nil]

/-- A numeral has nothing but digits. -/
theorem isDigit_of_mem_numeral {zeros n : Nat} {c : Char} (h : c ∈ numeral zeros n) : c.isDigit = true := by
  rcases List.mem_append.1 h with h | h
  · rw [List.eq_of_mem_replicate h]
    decide
  · exact Nat.isDigit_of_mem_toDigits (by decide) (by decide) h

/-- A numeral is read as its number, whatever the zeros in front. -/
theorem ofDigitChars_numeral (zeros n : Nat) : Nat.ofDigitChars 10 (numeral zeros n) 0 = n := by
  rw [numeral, Nat.ofDigitChars_append, Nat.ofDigitChars_replicate_zero, Nat.mul_zero, Nat.ofDigitChars_ten_toDigits]

/-! ## Digits -/

/-- A digit is that of a number below ten. -/
theorem exists_digitChar {c : Char} (h : c.isDigit = true) : ∃ d < 10, c = Nat.digitChar d := by
  obtain ⟨hl, hu⟩ : 48 ≤ c.toNat ∧ c.toNat ≤ 57 := Char.isDigit_iff_toNat.1 h
  refine ⟨c.toNat - 48, by omega, Char.toNat_inj.1 ?_⟩
  rw [Nat.toNat_digitChar_of_lt_ten (by omega)]
  omega

/-- Digits behind a number above zero are written behind its decimal. -/
theorem toDigits_ofDigitChars {digits : List Char} (hd : ∀ c ∈ digits, c.isDigit) {n : Nat} (hn : 0 < n) :
    Nat.toDigits 10 (Nat.ofDigitChars 10 digits n) = Nat.toDigits 10 n ++ digits := by
  induction digits generalizing n with
  | nil => simp
  | cons c digits ih =>
    obtain ⟨hc, hrest⟩ := List.forall_mem_cons.1 hd
    obtain ⟨d, hlt, rfl⟩ := exists_digitChar hc
    rw [Nat.ofDigitChars_cons_digitChar_of_lt_ten hlt, ih hrest (by omega),
      ← Nat.toDigits_append_toDigits (by decide) hn hlt, Nat.toDigits_of_lt_base hlt, List.append_assoc]
    rfl

/-- Digits with no needless zero in front are the decimal of the number they write. -/
theorem toDigits_of_no_zero {c : Char} {digits : List Char} (hd : ∀ d ∈ c :: digits, d.isDigit) (hz : c = '0' → digits = []) :
    Nat.toDigits 10 (Nat.ofDigitChars 10 (c :: digits) 0) = c :: digits := by
  obtain ⟨hc, hrest⟩ := List.forall_mem_cons.1 hd
  obtain ⟨d, hlt, rfl⟩ := exists_digitChar hc
  rw [Nat.ofDigitChars_cons_digitChar_of_lt_ten hlt, Nat.mul_zero, Nat.zero_add]
  rcases Nat.eq_zero_or_pos d with rfl | hpos
  · rw [hz rfl]
    rfl
  · rw [toDigits_ofDigitChars hrest hpos, Nat.toDigits_of_lt_base hlt]
    rfl

/-- Digits are some zeros and the decimal of the number they write. -/
theorem exists_numeral {digits : List Char} (hne : digits ≠ []) (hd : ∀ c ∈ digits, c.isDigit) :
    ∃ zeros, digits = numeral zeros (Nat.ofDigitChars 10 digits 0) := by
  induction digits with
  | nil => exact absurd rfl hne
  | cons c digits ih =>
    by_cases hz : c = '0' → digits = []
    · exact ⟨0, (toDigits_of_no_zero hd hz).symm⟩
    · -- a needless zero in front of the others
      obtain ⟨rfl, hdigits⟩ := Classical.not_imp.1 hz
      obtain ⟨zeros, hzeros⟩ := ih hdigits (List.forall_mem_cons.1 hd).2
      have hvalue : Nat.ofDigitChars 10 ('0' :: digits) 0 = Nat.ofDigitChars 10 digits 0 := rfl
      refine ⟨zeros + 1, ?_⟩
      rw [hvalue, numeral, List.replicate_succ, List.cons_append, ← numeral, ← hzeros]

/-! ## Words -/

/-- The characters of the name of a vector register. -/
theorem toList_vectorRegisterName (n : Fin 16) :
    (vectorRegisterName n).toList = 'x' :: 'm' :: 'm' :: Nat.toDigits 10 n.val := by
  rw [vectorRegisterName, String.toList_append, Nat.toString_eq_ofList_toDigits,
    String.toList_ofList (l := Nat.toDigits 10 n.val)]
  rfl

/-- The characters of a signed name. -/
theorem toList_signedName (zeros : Nat) (n : Fin 16) :
    (signedName zeros n).toList = 'x' :: 'm' :: 'm' :: '+' :: numeral zeros n.val := by
  rw [signedName, String.toList_append, String.toList_ofList (l := numeral zeros n.val)]
  rfl

namespace TokenKind

/-- The spelling of a keyword is reserved for it. -/
theorem ofWord_spelling (k : Keyword) : ofWord? k.spelling = some (.keyword k) := by cases k <;> rfl

/-- The name of a register is reserved for it. -/
theorem ofWord_name (r : Register) : ofWord? r.name = some (.register r) := by cases r <;> rfl

/-- The name of a vector register is reserved for it. -/
theorem ofWord_vectorRegisterName : ∀ n, ofWord? (vectorRegisterName n) = some (.vectorRegister n) := by decide +kernel

/-- The digits of a vector register are a numeral of its number. -/
theorem vectorNumber_eq_some_iff {digits : List Char} {n : Fin 16} :
    vectorNumber? digits = some n ↔ ∃ zeros, digits = numeral zeros n.val := by
  simp only [vectorNumber?, Option.dite_none_right_eq_some, Option.some.injEq]
  constructor
  · rintro ⟨⟨hne, hd, -⟩, rfl⟩
    exact exists_numeral hne (List.all_eq_true.1 hd)
  · rintro ⟨zeros, rfl⟩
    have hvalue := ofDigitChars_numeral zeros n.val
    refine ⟨⟨numeral_ne_nil zeros n.val, List.all_eq_true.2 fun c => isDigit_of_mem_numeral, ?_⟩, Fin.ext hvalue⟩
    rw [hvalue]
    exact n.isLt

/-- A number with no needless zero in front is read from its decimal. -/
theorem toDigits_of_vectorNumber {c : Char} {digits : List Char} {n : Fin 16} (h : vectorNumber? (c :: digits) = some n)
    (hz : c = '0' → digits = []) : c :: digits = Nat.toDigits 10 n.val := by
  simp only [vectorNumber?, Option.dite_none_right_eq_some, Option.some.injEq] at h
  obtain ⟨⟨-, hd, -⟩, rfl⟩ := h
  exact (toDigits_of_no_zero (List.all_eq_true.1 hd) hz).symm

/-- A word that is read as a vector register is its name, or its name with a sign. -/
theorem eq_or_signed_of_vectorRegister {word : String} {n : Fin 16} (h : vectorRegister? word = some n) :
    word = vectorRegisterName n ∨ ∃ zeros, word = signedName zeros n := by
  unfold vectorRegister? at h
  split at h
  · rename_i digits hword
    obtain ⟨zeros, rfl⟩ := vectorNumber_eq_some_iff.1 h
    exact .inr ⟨zeros, String.toList_inj.1 (hword.trans (toList_signedName zeros n).symm)⟩
  · cases h
  · rename_i digits _ hz hword
    cases digits with
    | nil => cases h
    | cons c digits =>
      refine .inl (String.toList_inj.1 ?_)
      rw [hword, toList_vectorRegisterName, toDigits_of_vectorNumber h]
      rintro rfl
      cases digits with
      | nil => rfl
      | cons d digits => exact absurd rfl (hz d digits)
  · cases h

/-- The sign is no character of a word. -/
theorem ne_signedName {word : String} (hw : ∀ c ∈ word.toList, isWordChar c) (zeros : Nat) (n : Fin 16) :
    word ≠ signedName zeros n := by
  rintro rfl
  rw [toList_signedName] at hw
  exact absurd (hw '+' (by simp)) (by decide)

/-- A word of letters, digits and underscores that is read as a vector register is its name. -/
theorem eq_of_vectorRegister {word : String} {n : Fin 16} (hw : ∀ c ∈ word.toList, isWordChar c)
    (h : vectorRegister? word = some n) : word = vectorRegisterName n := by
  rcases eq_or_signed_of_vectorRegister h with hname | ⟨zeros, hsigned⟩
  · exact hname
  · exact absurd hsigned (ne_signedName hw zeros n)

/-- The lexer reserves no other words than those that are listed. -/
theorem ofWord_eq_none {word : String} (hw : ∀ c ∈ word.toList, isWordChar c) (h : word ∉ reservedWords) :
    ofWord? word = none := by
  simp only [reservedWords, List.mem_append, List.mem_map, not_or, not_exists, not_and] at h
  have hkeyword : Keyword.ofWord? word = none :=
    List.find?_eq_none.2 fun k hk => by simpa using h.1.1 k hk
  have hregister : Register.ofName? word = none :=
    List.find?_eq_none.2 fun r hr => by simpa using h.1.2 r hr
  have hvector : vectorRegister? word = none := by
    rw [Option.eq_none_iff_forall_not_mem]
    intro n hn
    exact h.2 n (List.mem_finRange n) (eq_of_vectorRegister hw hn).symm
  rw [ofWord?, hkeyword, hregister, hvector]
  rfl

end TokenKind

/-- A word is the text of a token, whose kind is read from it. -/
theorem lexeme_of_isWord {word : String} (h : isWord word) :
    Lexeme word.toList ((TokenKind.ofWord? word).getD (.identifier word)) ∧ ∀ c ∈ word.toList, isWordChar c := by
  unfold isWord at h
  split at h
  · cases h
  · rename_i first rest hword
    rw [Bool.and_eq_true] at h
    have hr : ∀ c ∈ rest, isWordChar c := List.all_eq_true.1 h.2
    have hl := Lexeme.word h.1 hr
    rw [← hword, String.ofList_toList] at hl
    refine ⟨hl, ?_⟩
    rw [hword]
    exact List.forall_mem_cons.2 ⟨isWordChar_of_isWordStartChar h.1, hr⟩

/-- A reserved word is the text of its token. -/
theorem lexeme_of_ofWord {word : String} {kind : TokenKind} (h : isWord word) (hkind : TokenKind.ofWord? word = some kind) :
    Lexeme word.toList kind := by
  have hl := (lexeme_of_isWord h).1
  rwa [hkind, Option.getD_some] at hl

/-- The name of a vector register is a word. -/
theorem isWord_vectorRegisterName : ∀ n, isWord (vectorRegisterName n) := by decide +kernel

/-- What is written for a kind is the text of a token of that kind. -/
theorem Spelled.lexeme {kind : TokenKind} {lexeme : List Char} (h : Spelled kind lexeme) : Lexeme lexeme kind := by
  cases h with
  | integer zeros n =>
    have hvalue := ofDigitChars_numeral zeros n
    have hlt : Nat.ofDigitChars 10 (numeral zeros n) 0 < 0x8000000000000000 := by
      rw [hvalue]
      exact n.isLt
    have hl := Lexeme.integer hlt (numeral_ne_nil zeros n) fun _ => isDigit_of_mem_numeral
    rwa [show (⟨_, hlt⟩ : Fin 0x8000000000000000) = n from Fin.ext hvalue] at hl
  | text h => exact .string h
  | identifier h hword =>
    obtain ⟨hl, hall⟩ := lexeme_of_isWord h
    rwa [TokenKind.ofWord_eq_none hall hword] at hl
  | register r => exact lexeme_of_ofWord (by cases r <;> rfl) (TokenKind.ofWord_name r)
  | vectorRegister n => exact lexeme_of_ofWord (isWord_vectorRegisterName n) (TokenKind.ofWord_vectorRegisterName n)
  | keyword k => exact lexeme_of_ofWord (by cases k <;> rfl) (TokenKind.ofWord_spelling k)
  | symbol s => exact .symbol s

end RegisterCompiler
