import Mathlib
import RegisterCompiler.Proofs.Lexing.Spelling
import RegisterCompiler.Proofs.Lexing.Tiling

/-!
# Lexing what was written

A row is tokens written one behind the other, each with a blank and perhaps more blanks and comments behind it. The lexer reads
a row token by token, whatever stands behind it (`Row.tokens`), because no token goes on with a blank (`Fits.append_blank`). So
a source that writes tokens is read as these tokens and the end of the input, and an integer that is too large is reported where
it stands (`tokenize_written`).
-/

namespace RegisterCompiler

/-- What stands between two tokens: a blank, then blanks and comments. -/
inductive IsSeparator : List Char → Prop
  | blank {c : Char} {gap : List Char} : isBlankChar c → IsGap false gap → IsSeparator (c :: gap)

/-- Tokens of these kinds in a row, each with a separator behind it. -/
inductive Row : List TokenKind → List Char → Prop
  | nil : Row [] []
  | cons {kind : TokenKind} {kinds : List TokenKind} {lexeme separator rest : List Char} :
      Spelled kind lexeme → IsSeparator separator → Row kinds rest → Row (kind :: kinds) (lexeme ++ separator ++ rest)

/-- A source that begins with tokens of these kinds and goes on with a new token. -/
inductive Begun : List TokenKind → List Char → Prop
  | row {kinds : List TokenKind} {gap row : List Char} : IsGap false gap → Row kinds row → Begun kinds (gap ++ row)

/-- A source that consists of tokens of these kinds. Nothing needs to stand behind the last one. -/
inductive Written : List TokenKind → List Char → Prop
  | separated {kinds : List TokenKind} {chars : List Char} : Begun kinds chars → Written kinds chars
  | last {kinds : List TokenKind} {kind : TokenKind} {chars lexeme : List Char} :
      Begun kinds chars → Spelled kind lexeme → Written (kinds ++ [kind]) (chars ++ lexeme)

/-! ## Gaps before bytes -/

/-- A blank is a single byte, and a blank of the lexer. -/
theorem exists_blank {c : Char} (h : isBlankChar c) : ∃ b, c = charOfByte b ∧ b < 0x80 ∧ isBlank b := by
  simp only [isBlankChar, Bool.or_eq_true, beq_iff_eq] at h
  rcases h with ((rfl | rfl) | rfl) | rfl
  · exact ⟨0x20, by decide, by decide, by decide⟩
  · exact ⟨0x09, by decide, by decide, by decide⟩
  · exact ⟨0x0D, by decide, by decide, by decide⟩
  · exact ⟨0x0A, by decide, by decide, by decide⟩

/-- A byte below 0x80 is among the bytes of characters only if it is one of them. -/
theorem not_mem_encode {b : UInt8} (hb : b < 0x80) {chars : List Char} (h : charOfByte b ∉ chars) : b ∉ encode chars := by
  intro hm
  obtain ⟨c, hc, hbc⟩ := List.mem_flatMap.1 hm
  exact not_mem_encodeChar hb (ne_of_mem_of_not_mem hc h) hbc

/-- A gap is skipped whatever follows. -/
theorem IsGap.splitGap_append {gap : List Char} (h : IsGap false gap) (bytes : List UInt8) :
    splitGap false (encode gap ++ bytes) = (encode gap ++ (splitGap false bytes).1, (splitGap false bytes).2) := by
  induction h with
  | nil => rfl
  | @blank c rest hc _ ih =>
    obtain ⟨b, rfl, hlt, hb⟩ := exists_blank hc
    rw [encode_charOfByte_cons hlt, List.cons_append, splitGap_blank hb, ih]
    rfl
  | @comment body rest hbody _ ih =>
    have hline : encode ('\n' :: rest) = lineFeed :: encode rest := encode_charOfByte_cons lineFeed_lt rest
    have hcomment : encode ('/' :: '/' :: body ++ '\n' :: rest) =
        slashByte :: slashByte :: encode body ++ encode ('\n' :: rest) := by
      rw [encode_append, show '/' = charOfByte slashByte from rfl, encode_charOfByte_cons slashByte_lt,
        encode_charOfByte_cons slashByte_lt]
    -- a comment is skipped up to its line feed, which is a blank of the gap
    have hno : lineFeed ∉ slashByte :: encode body :=
      List.not_mem_cons_of_ne_of_not_mem (by decide) (not_mem_encode lineFeed_lt hbody)
    have hfeed : splitGap true (encode ('\n' :: rest) ++ bytes) = splitGap false (encode ('\n' :: rest) ++ bytes) := by
      rw [hline, List.cons_append, splitGap_comment_lineFeed, splitGap_blank (by decide)]
    rw [hcomment, List.append_assoc, List.cons_append, List.cons_append, splitGap_slash, ← List.cons_append,
      splitGap_comment_append hno, hfeed, ih]
    simp
  | lastComment h => cases h

/-- A lexer hands out the same tokens at a gap and behind it. -/
theorem Lexer.tokens_gap {gap : List Char} (h : IsGap false gap) (p : Position) (bytes : List UInt8) :
    Lexer.tokens ⟨p, encode gap ++ bytes, false⟩ = Lexer.tokens ⟨p.advance (encode gap), bytes, false⟩ := by
  have hnext : Lexer.next ⟨p, encode gap ++ bytes, false⟩ = Lexer.next ⟨p.advance (encode gap), bytes, false⟩ := by
    simp only [Lexer.next, h.splitGap_append, Position.advance_append]
  rw [Lexer.tokens, Lexer.tokens, hnext]

/-! ## Tokens before blanks -/

/-- Bytes that begin with a blank, if at all. -/
def BeginsBlank (bytes : List UInt8) : Prop := ∀ b ∈ bytes.head?, isBlank b

/-- The end of the input counts as blank. -/
theorem BeginsBlank.nil : BeginsBlank [] := by
  intro b hb
  cases hb

/-- A blank ends a word and a number. -/
theorem BeginsBlank.stops {bytes : List UInt8} (h : BeginsBlank bytes) :
    Stops isWordByte bytes ∧ Stops isDigitByte bytes ∧ ∀ behind, bytes ≠ pointByte :: behind := by
  refine ⟨fun b hb => ?_, fun b hb => ?_, ?_⟩
  · by_contra hw
    exact absurd (h b hb) (by simp [(not_isBlank_of_isWordByte (by simpa using hw)).1])
  · by_contra hd
    exact absurd (h b hb) (by simp [(not_isBlank_of_isWordByte (isWordByte_of_isDigitByte (by simpa using hd))).1])
  · rintro behind rfl
    exact absurd (h pointByte rfl) (by decide)

/-- No token goes on with a blank, neither next nor behind what stands next to it. -/
theorem Fits.append_blank {kind : TokenKind} {first : UInt8} {more rest bytes : List UInt8} (h : Fits kind first more rest)
    (hb : BeginsBlank bytes) : Fits kind first more (rest ++ bytes) := by
  obtain ⟨hword, hdigit, hpoint⟩ := hb.stops
  cases h with
  | word hf hm hs => exact .word hf hm (hs.append hword)
  | integer h hf hm hs hp =>
    refine .integer h hf hm (hs.append hdigit) fun behind he => ?_
    cases rest with
    | nil => exact absurd he (hpoint behind)
    | cons b rest =>
      obtain ⟨rfl, rfl⟩ := List.cons.inj he
      exact (hp _ rfl).append hdigit
  | fraction hf hm hd hp hs => exact .fraction hf hm hd hp (hs.append hdigit)
  | string h => exact .string h
  | pair h => exact .pair h
  | single h hs =>
    refine .single h fun second hsecond => ?_
    cases rest with
    | cons b rest => exact hs second hsecond
    | nil =>
      cases hp : Symbol.ofPair? (charOfByte first) (charOfByte second) with
      | none => rfl
      | some s =>
        exfalso
        have hblank : isBlankChar (charOfByte second) := (isBlankChar_charOfByte second).trans (hb second hsecond)
        rcases (isSymbolStart_of_ofPair hp).2 with h | h | h <;> rw [h] at hblank <;> exact absurd hblank (by decide)

/-- The text of a token is handed out as one token before a blank. -/
theorem Lexeme.tokens {kind : TokenKind} {lexeme : List Char} (h : Lexeme lexeme kind) (p : Position) {bytes : List UInt8}
    (hb : BeginsBlank bytes) : Lexer.tokens ⟨p, encode lexeme ++ bytes, false⟩ =
      ⟨kind, ⟨p, p.advance (encode lexeme)⟩, String.ofList lexeme⟩ ::
        Lexer.tokens ⟨p.advance (encode lexeme), bytes, false⟩ := by
  obtain ⟨first, more, he, hf⟩ := h.exists_fits
  have hf := hf.append_blank hb
  have hsplit : splitGap false (encode lexeme ++ bytes) = ([], first :: more ++ bytes) := by
    rw [he]
    refine hf.splitGap_eq fun _ _ hs => ?_
    exact absurd (hb slashByte hs) (by decide)
  rw [Lexer.tokens_of_fits hsplit hf, ← he, lossyText_encode]
  rfl

/-! ## Rows -/

/-- A separator is a gap. -/
theorem IsSeparator.isGap {separator : List Char} (h : IsSeparator separator) : IsGap false separator := by
  cases h with
  | blank hc h => exact .blank hc h

/-- What begins with a separator begins blank. -/
theorem IsSeparator.beginsBlank {separator : List Char} (h : IsSeparator separator) (bytes : List UInt8) :
    BeginsBlank (encode separator ++ bytes) := by
  cases h with
  | blank hc h =>
    obtain ⟨b, rfl, hlt, hb⟩ := exists_blank hc
    rw [encode_charOfByte_cons hlt]
    rintro b ⟨⟩
    exact hb

/-- Tokens a lexer hands out on its way from one place to another: well-formed ones of these kinds. -/
def HandsOut (kinds : List TokenKind) (source rest : Lexer) : Prop :=
  ∃ front : List Token, front.map (·.kind) = kinds ∧ (∀ t ∈ front, ∀ fault, t.kind ≠ .malformed fault) ∧
    source.tokens = front ++ rest.tokens

/-- A token that is handed out comes before those that follow. -/
theorem HandsOut.cons {t : Token} {kinds : List TokenKind} {source middle rest : Lexer}
    (ht : ∀ fault, t.kind ≠ .malformed fault) (h : source.tokens = t :: middle.tokens) (hm : HandsOut kinds middle rest) :
    HandsOut (t.kind :: kinds) source rest := by
  obtain ⟨front, rfl, hfront, htokens⟩ := hm
  exact ⟨t :: front, rfl, List.forall_mem_cons.2 ⟨ht, hfront⟩, by rw [h, htokens, List.cons_append]⟩

/-- A row is read token by token, whatever stands behind it. -/
theorem Row.handsOut {kinds : List TokenKind} {row : List Char} (h : Row kinds row) (p : Position) (bytes : List UInt8) :
    HandsOut kinds ⟨p, encode row ++ bytes, false⟩ ⟨p.advance (encode row), bytes, false⟩ := by
  induction h generalizing p with
  | nil => exact ⟨[], rfl, List.forall_mem_nil _, rfl⟩
  | @cons kind kinds lexeme separator rest hspelled hseparator _ ih =>
    have htoken := hspelled.lexeme.tokens p (hseparator.beginsBlank (encode rest ++ bytes))
    rw [Lexer.tokens_gap hseparator.isGap] at htoken
    rw [encode_append, encode_append, Position.advance_append, Position.advance_append, List.append_assoc, List.append_assoc]
    exact .cons hspelled.lexeme.proper.2 htoken (ih _)

/-- So is a row behind a gap at the start of a source. -/
theorem Begun.handsOut {kinds : List TokenKind} {chars : List Char} (h : Begun kinds chars) (bytes : List UInt8) :
    HandsOut kinds (Lexer.ofBytes (encode chars ++ bytes)) ⟨Position.origin.advance (encode chars), bytes, false⟩ := by
  cases h with
  | @row gap row hgap hrow =>
    obtain ⟨front, hkinds, hfront, htokens⟩ := hrow.handsOut (Position.origin.advance (encode gap)) bytes
    refine ⟨front, hkinds, hfront, ?_⟩
    rw [Lexer.ofBytes, encode_append, List.append_assoc, Lexer.tokens_gap hgap, htokens, Position.advance_append]

/-- Tokens in front that are well-formed stay in front. -/
theorem wellFormedTokens_append {front : List Token} (h : ∀ t ∈ front, ∀ fault, t.kind ≠ .malformed fault)
    (rest : List Token) : wellFormedTokens (front ++ rest) = (wellFormedTokens rest).map (front ++ ·) := by
  induction front with
  | nil =>
    rw [List.nil_append]
    cases wellFormedTokens rest <;> rfl
  | cons t front ih =>
    obtain ⟨ht, hfront⟩ := List.forall_mem_cons.1 h
    rw [List.cons_append, wellFormedTokens_cons ht, ih hfront]
    cases wellFormedTokens rest <;> rfl

/-- A source that is read up to a place is accepted if what follows is. -/
theorem HandsOut.tokenize {kinds : List TokenKind} {bytes : List UInt8} {rest : Lexer} {tokens : List Token}
    (h : HandsOut kinds (Lexer.ofBytes bytes) rest) (hrest : wellFormedTokens rest.tokens = .ok tokens) :
    ∃ front, tokenize bytes = .ok (front ++ tokens) ∧ front.map (·.kind) = kinds := by
  obtain ⟨front, hkinds, hfront, htokens⟩ := h
  refine ⟨front, ?_, hkinds⟩
  rw [RegisterCompiler.tokenize, htokens, wellFormedTokens_append hfront, hrest]
  rfl

/-- It is refused where what follows is. -/
theorem HandsOut.tokenize_error {kinds : List TokenKind} {bytes : List UInt8} {rest : Lexer} {e : LexError}
    (h : HandsOut kinds (Lexer.ofBytes bytes) rest) (hrest : wellFormedTokens rest.tokens = .error e) :
    RegisterCompiler.tokenize bytes = .error e := by
  obtain ⟨front, -, hfront, htokens⟩ := h
  rw [RegisterCompiler.tokenize, htokens, wellFormedTokens_append hfront, hrest]
  rfl

/-! ## What was written is read -/

/-- Where nothing is left to read, the end of the input is handed out. -/
theorem wellFormedTokens_end (p : Position) :
    wellFormedTokens (Lexer.tokens ⟨p, [], false⟩) = .ok [⟨.endOfInput, Span.point p, ""⟩] := by
  have hsplit : splitGap false [] = ([], []) := rfl
  rw [Lexer.tokens_of_gap hsplit, wellFormedTokens_cons (by intro fault h; cases h)]
  rfl

/-- A source that ends behind a token or a separator is read as its tokens. -/
theorem Written.tokenize {kinds : List TokenKind} {chars : List Char} (h : Written kinds chars) :
    ∃ tokens, tokenize (encode chars) = .ok tokens ∧ tokens.map (·.kind) = kinds ++ [.endOfInput] := by
  cases h with
  | separated h =>
    have hread := h.handsOut []
    rw [List.append_nil] at hread
    obtain ⟨front, htokens, hkinds⟩ := hread.tokenize (wellFormedTokens_end _)
    exact ⟨_, htokens, by rw [List.map_append, hkinds]; rfl⟩
  | @last kinds kind chars lexeme h hspelled =>
    have hlexeme := hspelled.lexeme
    have hlast (p : Position) : wellFormedTokens (Lexer.tokens ⟨p, encode lexeme ++ [], false⟩) =
        .ok [⟨kind, ⟨p, p.advance (encode lexeme)⟩, String.ofList lexeme⟩,
          ⟨.endOfInput, Span.point (p.advance (encode lexeme)), ""⟩] := by
      rw [hlexeme.tokens p .nil, wellFormedTokens_cons hlexeme.proper.2, wellFormedTokens_end]
      rfl
    have hread := h.handsOut (encode lexeme ++ [])
    rw [← List.append_assoc, List.append_nil, ← encode_append] at hread
    obtain ⟨front, htokens, hkinds⟩ := hread.tokenize (hlast _)
    refine ⟨_, htokens, ?_⟩
    rw [List.map_append, hkinds, List.append_assoc]
    rfl

/-- Digits that write a number from 2 ^ 63 on are a fault where they stand. -/
theorem wellFormedTokens_overlarge {digits : List Char} (hne : digits ≠ []) (hd : ∀ c ∈ digits, c.isDigit)
    (hlarge : 0x8000000000000000 ≤ Nat.ofDigitChars 10 digits 0) (p : Position) {bytes : List UInt8} (hb : BeginsBlank bytes) :
    wellFormedTokens (Lexer.tokens ⟨p, encode digits ++ bytes, false⟩) = .error ⟨.integerRange, p⟩ := by
  obtain ⟨-, hdigit, hpoint⟩ := hb.stops
  obtain ⟨run, rfl, he, hrun⟩ := exists_bytes_of_class isDigit_charOfByte (fun _ => isWordChar_of_isDigit) hd
  cases run with
  | nil => exact absurd rfl hne
  | cons first more =>
    obtain ⟨hf, hm⟩ := List.forall_mem_cons.1 hrun
    have hgap := not_isBlank_of_isWordByte (isWordByte_of_isDigitByte hf)
    have hsplit : splitGap false (first :: (more ++ bytes)) = ([], first :: (more ++ bytes)) :=
      splitGap_eq_nil hgap.1 fun h => hgap.2 h.1
    have hkind : Scan.integerKind (first :: more) = .malformed .integerRange := dif_neg (Nat.not_lt.2 hlarge)
    have hscan (here : Position) : Scan.scan here first (more ++ bytes) =
        ⟨.malformed .integerRange, [], first :: more, asciiText (first :: more), bytes⟩ := by
      rw [Fits.scan_number hf, Scan.number_append hm hdigit (fun behind h => absurd h (hpoint behind)), hkind]
    have hnext : Lexer.next ⟨p, encode ((first :: more).map charOfByte) ++ bytes, false⟩ =
        some (⟨.malformed .integerRange, ⟨p, p.advance (first :: more)⟩, asciiText (first :: more)⟩,
          ⟨p.advance (first :: more), bytes, false⟩) := by
      simp only [Lexer.next, he, List.cons_append, hsplit, hscan, Position.advance_nil, Bool.false_eq_true, if_false]
    rw [Lexer.tokens_of_next hnext, wellFormedTokens]

/-- Writing tokens and reading them gives their kinds back, with the end of the input behind them. An integer from 2 ^ 63 on
behind written tokens is refused where it stands. -/
theorem tokenize_written :
    (∀ (kinds : List TokenKind) (chars : List Char), Written kinds chars →
      ∃ tokens, tokenize (encode chars) = .ok tokens ∧ tokens.map (·.kind) = kinds ++ [.endOfInput]) ∧
    (∀ (kinds : List TokenKind) (before : List Char) (zeros n : Nat) (bytes : List UInt8), Begun kinds before →
      2 ^ 63 ≤ n → BeginsBlank bytes →
      tokenize (encode before ++ (encode (numeral zeros n) ++ bytes)) =
        .error ⟨.integerRange, Position.origin.advance (encode before)⟩) := by
  refine ⟨fun kinds chars h => h.tokenize, ?_⟩
  intro kinds before zeros n bytes hbefore hlarge hb
  refine (hbefore.handsOut _).tokenize_error ?_
  refine wellFormedTokens_overlarge (numeral_ne_nil zeros n) (fun _ => isDigit_of_mem_numeral) ?_ _ hb
  rw [ofDigitChars_numeral]
  exact hlarge

/-- An integer with a needless zero, and a word that is almost a register, with a comment between them. -/
theorem begun_sample : Begun [.integer 7, .identifier "xmm16"] "07 // \"\nxmm16\t".toList := by
  have hblank : IsSeparator ['\t'] := .blank (by decide) .nil
  have hcomment : IsSeparator (' ' :: ("//".toList ++ " \"".toList ++ '\n' :: [])) :=
    .blank (by decide) (.comment (by decide) (.blank (by decide) .nil))
  exact .row .nil (.cons (.integer 1 7) hcomment (.cons (.identifier (by decide) (by decide +kernel)) hblank .nil))

/-- A source with zeros in front of a number, a comment, a quote in a string, and an integer that is too large. -/
theorem tokenize_written_sample :
    (∃ tokens, tokenize (encode "07 // \"\nxmm16\t\"\\\"\"".toList) = .ok tokens ∧
      tokens.map (·.kind) = [.integer 7, .identifier "xmm16", .text "\"", .endOfInput]) ∧
    tokenize (encode "07 // \"\nxmm16\t".toList ++ (encode (numeral 2 (2 ^ 63)) ++ [0x20])) =
      .error ⟨.integerRange, ⟨14, 2, 7⟩⟩ := by
  have hquote : Spelled (.text "\"") "\"\\\"\"".toList := .text (.escape (by decide) .nil)
  have hblank : BeginsBlank [0x20] := by
    rintro b ⟨⟩
    decide
  have hplace : Position.origin.advance (encode "07 // \"\nxmm16\t".toList) = ⟨14, 2, 7⟩ := by decide +kernel
  refine ⟨tokenize_written.1 _ _ (.last begun_sample hquote), ?_⟩
  rw [tokenize_written.2 _ _ 2 (2 ^ 63) [0x20] begun_sample (Nat.le_refl _) hblank, hplace]

end RegisterCompiler
