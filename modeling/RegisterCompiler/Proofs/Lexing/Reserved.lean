import RegisterCompiler.Proofs.Lexing.Spelling

/-!
# How reserved words are spelled

Every keyword, register and vector register has a spelling, and a word is reserved for the kind that it spells. One more way to
write a vector register is read as well: a plus sign in front of the number, and then any zeros (`TokenKind.ofWord_eq_some_iff`).
So a kind is reserved in one spelling only as long as no sign stands in the words (`TokenKind.spellings_ofWord`); the lexer reads
no sign into a word, but `TokenKind.ofWord?` takes any text (`TokenKind.not_oneSpelling_signed`).
-/

namespace RegisterCompiler

/-- The keyword that is found for a word is written like it. -/
theorem Keyword.spelling_of_ofWord {word : String} {k : Keyword} (h : ofWord? word = some k) : k.spelling = word := by
  unfold ofWord? at h
  simpa using List.find?_some h

/-- The register that is found for a word is called like it. -/
theorem Register.name_of_ofName {word : String} {r : Register} (h : ofName? word = some r) : r.name = word := by
  unfold ofName? at h
  simpa using List.find?_some h

namespace TokenKind

/-- The spelling of a keyword, a register or a vector register. -/
def spelling? : TokenKind → Option String
  | keyword k => some k.spelling
  | register r => some r.name
  | vectorRegister n => some (vectorRegisterName n)
  | _ => none

/-- A word is reserved for the kind of which it is the spelling, and for no other. -/
def OneSpelling (word : String) : Prop := ∀ kind, ofWord? word = some kind ↔ kind.spelling? = some word

/-- A spelling is a word. -/
theorem isWord_of_spelling {kind : TokenKind} {word : String} (h : kind.spelling? = some word) : isWord word := by
  cases kind with
  | keyword k =>
    obtain rfl := Option.some.inj h
    cases k <;> rfl
  | register r =>
    obtain rfl := Option.some.inj h
    cases r <;> rfl
  | vectorRegister n => exact Option.some.inj h ▸ isWord_vectorRegisterName n
  | _ => cases h

/-- A spelling has no sign. -/
theorem ne_signedName_of_spelling {kind : TokenKind} {word : String} (h : kind.spelling? = some word) (zeros : Nat)
    (n : Fin 16) : word ≠ signedName zeros n := by
  have hchars := (lexeme_of_isWord (isWord_of_spelling h)).2
  exact ne_signedName hchars zeros n

/-- The number of a vector register is read with a sign too. -/
theorem ofWord_signedName (zeros : Nat) (n : Fin 16) : ofWord? (signedName zeros n) = some (.vectorRegister n) := by
  have hkeyword : Keyword.ofWord? (signedName zeros n) = none :=
    List.find?_eq_none.2 fun k _ => by
      simpa using ne_signedName_of_spelling (show spelling? (.keyword k) = _ from rfl) zeros n
  have hregister : Register.ofName? (signedName zeros n) = none :=
    List.find?_eq_none.2 fun r _ => by
      simpa using ne_signedName_of_spelling (show spelling? (.register r) = _ from rfl) zeros n
  have hvector : vectorRegister? (signedName zeros n) = some n := by
    rw [vectorRegister?, toList_signedName]
    exact vectorNumber_eq_some_iff.2 ⟨zeros, rfl⟩
  rw [ofWord?, hkeyword, hregister, hvector]
  rfl

/-- A spelling is reserved for its kind. -/
theorem ofWord_of_spelling {kind : TokenKind} {word : String} (h : kind.spelling? = some word) : ofWord? word = some kind := by
  cases kind with
  | keyword k => exact Option.some.inj h ▸ ofWord_spelling k
  | register r => exact Option.some.inj h ▸ ofWord_name r
  | vectorRegister n => exact Option.some.inj h ▸ ofWord_vectorRegisterName n
  | _ => cases h

/-- A word is reserved for the kind that it spells, and for a vector register if it is the name of that with a sign. -/
theorem ofWord_eq_some_iff {word : String} {kind : TokenKind} : ofWord? word = some kind ↔
    kind.spelling? = some word ∨ ∃ zeros n, kind = .vectorRegister n ∧ word = signedName zeros n := by
  constructor
  · intro h
    unfold ofWord? at h
    cases hk : Keyword.ofWord? word with
    | some k =>
      rw [hk] at h
      obtain rfl := Option.some.inj h
      exact .inl (congrArg some (Keyword.spelling_of_ofWord hk))
    | none =>
      cases hr : Register.ofName? word with
      | some r =>
        rw [hk, hr] at h
        obtain rfl := Option.some.inj h
        exact .inl (congrArg some (Register.name_of_ofName hr))
      | none =>
        rw [hk, hr] at h
        obtain ⟨n, hn, rfl⟩ := Option.map_eq_some_iff.1 h
        rcases eq_or_signed_of_vectorRegister hn with hname | ⟨zeros, hsigned⟩
        · exact .inl (congrArg some hname.symm)
        · exact .inr ⟨zeros, n, rfl, hsigned⟩
  · rintro (h | ⟨zeros, n, rfl, rfl⟩)
    · exact ofWord_of_spelling h
    · exact ofWord_signedName zeros n

/-- The names with a sign are all that stands against a single spelling. -/
theorem oneSpelling_iff {word : String} : OneSpelling word ↔ ∀ zeros n, word ≠ signedName zeros n := by
  constructor
  · rintro h zeros n rfl
    exact ne_signedName_of_spelling ((h _).1 (ofWord_signedName zeros n)) zeros n rfl
  · intro h kind
    rw [ofWord_eq_some_iff]
    refine or_iff_left ?_
    rintro ⟨zeros, n, -, hword⟩
    exact h zeros n hword

/-- In which spellings words are reserved. -/
structure Spellings (word : String) : Prop where
  /-- A word is reserved for the kind that it spells; a name with a sign is reserved for its vector register. -/
  reserved : ∀ kind, ofWord? word = some kind ↔
    kind.spelling? = some word ∨ ∃ zeros n, kind = .vectorRegister n ∧ word = signedName zeros n
  /-- Nothing but its spelling is reserved for a kind, exactly as long as the word is no name with a sign. -/
  once : OneSpelling word ↔ ∀ zeros n, word ≠ signedName zeros n
  /-- Of the other words no two are reserved for the same kind. -/
  unique : (∀ zeros n, word ≠ signedName zeros n) → ∀ other kind, (∀ zeros n, other ≠ signedName zeros n) →
    ofWord? word = some kind → ofWord? other = some kind → other = word
  /-- A word as the lexer reads it has no sign; it is a token of the kind that it spells, and else an identifier. -/
  lexed : isWord word → OneSpelling word ∧ Lexeme word.toList ((ofWord? word).getD (.identifier word))

/-- Words are reserved in one spelling, but for the vector registers, whose numbers may have a sign. -/
theorem spellings_ofWord (word : String) : Spellings word := by
  constructor
  case reserved => exact fun kind => ofWord_eq_some_iff
  case once => exact oneSpelling_iff
  case unique =>
    intro hword other kind hother h h'
    have hspelling := (oneSpelling_iff.2 hword kind).1 h
    exact Option.some.inj (((oneSpelling_iff.2 hother kind).1 h').symm.trans hspelling)
  case lexed =>
    intro h
    obtain ⟨hlexeme, hchars⟩ := lexeme_of_isWord h
    exact ⟨oneSpelling_iff.2 (ne_signedName hchars), hlexeme⟩

/-- The second vector register has a sign in front of its number and is not its spelling. -/
theorem not_oneSpelling_signed : ¬OneSpelling "xmm+1" := by
  intro h
  have hread : ofWord? "xmm+1" = some (.vectorRegister 1) := by decide +kernel
  exact absurd ((h _).1 hread) (by decide +kernel)

end TokenKind

end RegisterCompiler
