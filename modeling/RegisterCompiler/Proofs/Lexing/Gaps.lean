import Mathlib
import RegisterCompiler.Proofs.Lexing.Scanning

/-!
# Gaps between tokens

A gap is blanks and comments. A comment ends before a line feed, which is a blank of the gap, so only the gap at the end of a
source may end inside a comment. What the lexer skips before a token is a gap (`exists_gap`), and before the text of a token it
skips nothing (`Fits.splitGap_eq`).
-/

namespace RegisterCompiler

/-- A space, a tab, a carriage return or a line feed. -/
def isBlankChar (c : Char) : Bool := c == ' ' || c == '\t' || c == '\r' || c == '\n'

/-- Blanks and comments. The flag tells that the source ends behind them. -/
inductive IsGap (last : Bool) : List Char → Prop
  | nil : IsGap last []
  | blank {c : Char} {rest : List Char} : isBlankChar c → IsGap last rest → IsGap last (c :: rest)
  | comment {body rest : List Char} :
      '\n' ∉ body → IsGap last ('\n' :: rest) → IsGap last ('/' :: '/' :: body ++ '\n' :: rest)
  | lastComment {body : List Char} : last = true → '\n' ∉ body → IsGap last ('/' :: '/' :: body)

/-- The rest of a gap that begins inside a comment. -/
def EndsComment (last : Bool) (gap : List Char) : Prop :=
  (last = true ∧ '\n' ∉ gap) ∨ ∃ body rest, '\n' ∉ body ∧ IsGap last ('\n' :: rest) ∧ gap = body ++ '\n' :: rest

/-- Two slashes and the rest of a comment are a gap. -/
theorem EndsComment.isGap {last : Bool} {gap : List Char} (h : EndsComment last ('/' :: gap)) :
    IsGap last ('/' :: '/' :: gap) := by
  rcases h with ⟨rfl, h⟩ | ⟨body, rest, hb, hr, he⟩
  · exact .lastComment rfl fun hm => h (List.mem_cons_of_mem _ hm)
  · cases body with
    | nil => exact absurd (List.cons_eq_cons.1 he).1 (by decide)
    | cons c body =>
      obtain ⟨-, rfl⟩ := List.cons_eq_cons.1 he
      exact .comment (fun hm => hb (List.mem_cons_of_mem _ hm)) hr

/-- A comment goes on with every character but the line feed. -/
theorem EndsComment.cons {last : Bool} {gap : List Char} {c : Char} (hc : c ≠ '\n') (h : EndsComment last gap) :
    EndsComment last (c :: gap) := by
  rcases h with ⟨rfl, h⟩ | ⟨body, rest, hb, hr, rfl⟩
  · exact .inl ⟨rfl, List.not_mem_cons_of_ne_of_not_mem hc.symm h⟩
  · exact .inr ⟨c :: body, rest, List.not_mem_cons_of_ne_of_not_mem hc.symm hb, hr, rfl⟩

/-- A comment that goes on is not over at once. -/
theorem EndsComment.exists_of_cons {gap rest chars : List Char} {c : Char} (h : EndsComment rest.isEmpty gap)
    (he : gap ++ rest = c :: chars) : ∃ more, gap = c :: more ∧ chars = more ++ rest := by
  cases gap with
  | nil =>
    rcases h with ⟨hlast, -⟩ | ⟨body, tail, -, -, h⟩
    · rw [List.isEmpty_iff.1 hlast] at he
      cases he
    · cases body <;> cases h
  | cons d gap =>
    obtain ⟨rfl, rfl⟩ := List.cons_eq_cons.1 he
    exact ⟨gap, rfl, rfl⟩

/-- A byte is blank exactly if its character is. -/
theorem isBlankChar_charOfByte (b : UInt8) : isBlankChar (charOfByte b) = isBlank b := forall_byte (by decide +kernel) b

/-- Blanks are ASCII. -/
theorem lt_of_isBlank {b : UInt8} (h : isBlank b = true) : b < 0x80 := by
  revert h
  exact forall_byte (by decide +kernel) b

/-- A byte of a word begins no gap. -/
theorem not_isBlank_of_isWordByte {b : UInt8} (h : isWordByte b = true) : isBlank b = false ∧ b ≠ slashByte := by
  revert h
  exact forall_byte (by decide +kernel) b

/-- So is a line feed. -/
theorem lineFeed_lt : lineFeed < 0x80 := by decide

/-- So is a slash. -/
theorem slashByte_lt : slashByte < 0x80 := by decide

/-- Inside a comment bytes are skipped up to the line feed. -/
theorem splitGap_comment_append {bytes : List UInt8} (h : lineFeed ∉ bytes) (rest : List UInt8) :
    splitGap true (bytes ++ rest) = (bytes ++ (splitGap true rest).1, (splitGap true rest).2) := by
  induction bytes with
  | nil => rfl
  | cons b bytes ih =>
    rw [List.mem_cons, not_or] at h
    have hb : (b != lineFeed) = true := bne_iff_ne.2 (Ne.symm h.1)
    rw [List.cons_append, splitGap]
    simp only [if_true, hb, ih h.2]
    rfl

/-- A line feed ends a comment, and the gap goes on. -/
theorem splitGap_comment_lineFeed (rest : List UInt8) :
    splitGap true (lineFeed :: rest) = (lineFeed :: (splitGap false rest).1, (splitGap false rest).2) := by
  rw [splitGap]
  rfl

/-- A blank belongs to the gap. -/
theorem splitGap_blank {b : UInt8} (h : isBlank b = true) (rest : List UInt8) :
    splitGap false (b :: rest) = (b :: (splitGap false rest).1, (splitGap false rest).2) := by
  rw [splitGap]
  simp only [h, if_true]
  rfl

/-- Two slashes begin a comment. -/
theorem splitGap_slash (rest : List UInt8) : splitGap false (slashByte :: slashByte :: rest) =
    (slashByte :: (splitGap true (slashByte :: rest)).1, (splitGap true (slashByte :: rest)).2) := by
  rw [splitGap]
  rfl

/-- What is neither blank nor a comment is no gap. -/
theorem splitGap_eq_nil {b : UInt8} {rest : List UInt8} (hb : isBlank b = false)
    (hs : ¬ (b = slashByte ∧ rest.head? = some slashByte)) : splitGap false (b :: rest) = ([], b :: rest) := by
  rw [splitGap]
  simp only [hb, if_neg hs, Bool.false_eq_true, if_false]

/-! ## Gaps end between characters -/

/-- What is skipped of characters is a gap, the last one if nothing is left. -/
def SkipsGap (chars : List Char) : Prop :=
  ∃ gap rest, chars = gap ++ rest ∧ splitGap false (encode chars) = (encode gap, encode rest) ∧ IsGap rest.isEmpty gap

/-- What is skipped of characters inside a comment is the rest of a gap. -/
def SkipsComment (chars : List Char) : Prop :=
  ∃ gap rest, chars = gap ++ rest ∧ splitGap true (encode chars) = (encode gap, encode rest) ∧ EndsComment rest.isEmpty gap

/-- A comment goes on behind any character, unless it is the line feed, where the gap goes on. -/
theorem skipsComment_cons {c : Char} {chars : List Char} (hgap : SkipsGap chars) (hcomment : SkipsComment chars) :
    SkipsComment (c :: chars) := by
  by_cases hc : c = '
'
  · subst hc
    obtain ⟨gap, rest, rfl, hsplit, hgap⟩ := hgap
    have hline (chars : List Char) : encode ('
' :: chars) = lineFeed :: encode chars :=
      encode_charOfByte_cons lineFeed_lt chars
    refine ⟨'
' :: gap, rest, rfl, ?_, .inr ⟨[], gap, List.not_mem_nil, .blank (by decide) hgap, rfl⟩⟩
    rw [hline, splitGap_comment_lineFeed, hsplit, hline]
  · obtain ⟨gap, rest, rfl, hsplit, hcomment⟩ := hcomment
    refine ⟨c :: gap, rest, rfl, ?_, hcomment.cons hc⟩
    rw [encode_cons, splitGap_comment_append (not_mem_encodeChar lineFeed_lt hc), hsplit]
    rfl

/-- A gap goes on behind a blank, and behind two slashes as a comment. -/
theorem skipsGap_cons {c : Char} {chars : List Char} (hgap : SkipsGap chars) (hcomment : SkipsComment chars) :
    SkipsGap (c :: chars) := by
  obtain ⟨b, bytes, hb⟩ := exists_encode_cons c chars
  -- a byte below 0x80 is the character itself
  have hchar (hlt : b < 0x80) : c = charOfByte b ∧ bytes = encode chars := by
    obtain ⟨more, hmore, rfl⟩ := exists_of_encode_eq_append (List.forall_mem_singleton.2 hlt)
      (show encode (c :: chars) = [b] ++ bytes from hb)
    obtain ⟨rfl, rfl⟩ := List.cons_eq_cons.1 hmore
    exact ⟨rfl, rfl⟩
  by_cases hblank : isBlank b = true
  · obtain ⟨rfl, rfl⟩ := hchar (lt_of_isBlank hblank)
    obtain ⟨gap, rest, rfl, hsplit, hgap⟩ := hgap
    refine ⟨charOfByte b :: gap, rest, rfl, ?_, .blank ((isBlankChar_charOfByte b).trans hblank) hgap⟩
    rw [hb, splitGap_blank hblank, hsplit, encode_charOfByte_cons (lt_of_isBlank hblank)]
  by_cases hslash : b = slashByte ∧ bytes.head? = some slashByte
  · obtain ⟨rfl, hhead⟩ := hslash
    obtain ⟨rfl, rfl⟩ := hchar slashByte_lt
    obtain ⟨bytes, hbytes⟩ := List.head?_eq_some_iff.1 hhead
    obtain ⟨chars, rfl, -⟩ := exists_of_encode_eq_append (List.forall_mem_singleton.2 slashByte_lt)
      (show encode chars = [slashByte] ++ bytes from hbytes)
    obtain ⟨gap, rest, he, hsplit, hcomment⟩ := hcomment
    obtain ⟨gap, rfl, rfl⟩ := hcomment.exists_of_cons he.symm
    refine ⟨'/' :: '/' :: gap, rest, rfl, ?_, hcomment.isGap⟩
    rw [hb, hbytes, splitGap_slash, ← hbytes, hsplit]
    exact congrArg (fun g => (g, encode rest)) (encode_charOfByte_cons slashByte_lt _).symm
  · exact ⟨[], c :: chars, rfl, by rw [hb, splitGap_eq_nil (by simpa using hblank) hslash, ← hb]; rfl, .nil⟩

/-- Every gap is skipped to an end between characters, also from inside a comment. -/
theorem skips (chars : List Char) : SkipsGap chars ∧ SkipsComment chars := by
  induction chars with
  | nil => exact ⟨⟨[], [], rfl, rfl, .nil⟩, ⟨[], [], rfl, rfl, .inl ⟨rfl, List.not_mem_nil⟩⟩⟩
  | cons c chars ih => exact ⟨skipsGap_cons ih.1 ih.2, skipsComment_cons ih.1 ih.2⟩

/-- Before the bytes of a token nothing is skipped, unless a slash follows a slash. -/
theorem Fits.splitGap_eq {kind : TokenKind} {first : UInt8} {more rest : List UInt8} (h : Fits kind first more rest)
    (hs : first = slashByte → more = [] → rest.head? ≠ some slashByte) :
    splitGap false (first :: more ++ rest) = ([], first :: more ++ rest) := by
  cases h with
  | word hf =>
    have hn := not_isBlank_of_isWordByte (isWordByte_of_isWordStart hf)
    exact splitGap_eq_nil hn.1 fun h => hn.2 h.1
  | integer _ hf =>
    have hn := not_isBlank_of_isWordByte (isWordByte_of_isDigitByte hf)
    exact splitGap_eq_nil hn.1 fun h => hn.2 h.1
  | fraction hf =>
    have hn := not_isBlank_of_isWordByte (isWordByte_of_isDigitByte hf)
    exact splitGap_eq_nil hn.1 fun h => hn.2 h.1
  | string => exact splitGap_eq_nil (by decide) fun h => absurd h.1 (by decide)
  | @pair first second s rest h =>
    refine splitGap_eq_nil (class_of_isSymbolStart (isSymbolStart_of_ofPair h).1).2.2.2.2 ?_
    rintro ⟨rfl, hsecond⟩
    obtain rfl : second = slashByte := Option.some.inj hsecond
    exact absurd (isSymbolStart_of_ofPair h).2 (by decide)
  | single h =>
    exact splitGap_eq_nil (class_of_isSymbolStart (isSymbolStart_of_ofChar h)).2.2.2.2 fun hc => hs hc.1 rfl hc.2

end RegisterCompiler
