import Mathlib
import RegisterCompiler.Proofs.Lexing.Gaps

/-!
# Tokens tile their source

`Tiles` is a source cut into gaps and tokens: every token is the text of a token behind a gap, no longer start of what is left
is such a text, its span is where it stands, and the end of the input stands behind the last gap. The tokens of an accepted
source tile it (`Tiles.of_tokens`). The texts of tokens are those that are read alone as one token
(`lexeme_iff_tokenize`).
-/

namespace RegisterCompiler

/-- No longer start of a text and what follows it is the text of a token. -/
def Longest (lexeme rest : List Char) : Prop :=
  ∀ more kind, more <+: rest → Lexeme (lexeme ++ more) kind → more = []

/-- Tokens that tile characters from a position on. -/
inductive Tiles : Position → List Char → List Token → Prop
  | ended {p : Position} {gap : List Char} : IsGap true gap →
      Tiles p gap [⟨.endOfInput, Span.point (p.advance (encode gap)), ""⟩]
  | token {p start stop : Position} {gap lexeme rest : List Char} {kind : TokenKind} {tokens : List Token} :
      IsGap false gap → Lexeme lexeme kind → Longest lexeme rest →
      start = p.advance (encode gap) → stop = start.advance (encode lexeme) → Tiles stop rest tokens →
      Tiles p (gap ++ lexeme ++ rest) (⟨kind, ⟨start, stop⟩, String.ofList lexeme⟩ :: tokens)

/-! ## The lexer, token by token -/

/-- The tokens of a lexer are its next one and those behind it. -/
theorem Lexer.tokens_of_next {l l' : Lexer} {t : Token} (h : l.next = some (t, l')) : l.tokens = t :: l'.tokens := by
  rw [Lexer.tokens]
  split
  · rename_i hn
    rw [hn] at h
    cases h
  · rename_i t' l'' hn
    rw [hn] at h
    obtain ⟨rfl, rfl⟩ := Prod.mk.inj (Option.some.inj h)
    rfl

/-- A lexer that has handed out the end has no more tokens. -/
theorem Lexer.tokens_finished (p : Position) (bytes : List UInt8) : Lexer.tokens ⟨p, bytes, true⟩ = [] := by
  rw [Lexer.tokens]
  rfl

/-- A token that is well-formed is passed on. -/
theorem wellFormedTokens_cons {t : Token} (h : ∀ fault, t.kind ≠ .malformed fault) (rest : List Token) :
    wellFormedTokens (t :: rest) = (wellFormedTokens rest).map (t :: ·) := by
  rw [wellFormedTokens]
  split
  · exact absurd ‹_› (h _)
  · rfl

/-- No token of an accepted list is malformed, and the rest of the list is accepted. -/
theorem exists_of_wellFormedTokens_cons {t : Token} {rest tokens : List Token}
    (h : wellFormedTokens (t :: rest) = .ok tokens) :
    (∀ fault, t.kind ≠ .malformed fault) ∧ ∃ tail, wellFormedTokens rest = .ok tail ∧ tokens = t :: tail := by
  by_cases hk : ∀ fault, t.kind ≠ .malformed fault
  · rw [wellFormedTokens_cons hk] at h
    cases hr : wellFormedTokens rest with
    | error e => rw [hr] at h; cases h
    | ok tail =>
      rw [hr] at h
      exact ⟨hk, tail, rfl, (Except.ok.inj h).symm⟩
  · push Not at hk
    obtain ⟨fault, hk⟩ := hk
    rw [wellFormedTokens, hk] at h
    cases h

/-- At the end of the input a lexer hands out nothing else. -/
theorem Lexer.tokens_of_gap {p : Position} {bytes gap : List UInt8} (h : splitGap false bytes = (gap, [])) :
    Lexer.tokens ⟨p, bytes, false⟩ = [⟨.endOfInput, Span.point (p.advance gap), ""⟩] := by
  have hn : Lexer.next ⟨p, bytes, false⟩ =
      some (⟨.endOfInput, Span.point (p.advance gap), ""⟩, ⟨p.advance gap, [], true⟩) := by
    simp only [Lexer.next, h, Bool.false_eq_true, if_false]
  rw [Lexer.tokens_of_next hn, Lexer.tokens_finished]

/-- A token is handed out with the span where its bytes stand. -/
theorem Lexer.tokens_of_fits {p : Position} {bytes gap : List UInt8} {kind : TokenKind} {first : UInt8}
    {more rest : List UInt8} (h : splitGap false bytes = (gap, first :: more ++ rest)) (hf : Fits kind first more rest) :
    Lexer.tokens ⟨p, bytes, false⟩ =
      ⟨kind, ⟨p.advance gap, (p.advance gap).advance (first :: more)⟩, lossyText (first :: more)⟩ ::
        Lexer.tokens ⟨(p.advance gap).advance (first :: more), rest, false⟩ := by
  have hn : Lexer.next ⟨p, bytes, false⟩ =
      some (⟨kind, ⟨p.advance gap, (p.advance gap).advance (first :: more)⟩, lossyText (first :: more)⟩,
        ⟨(p.advance gap).advance (first :: more), rest, false⟩) := by
    simp only [Lexer.next, h, Bool.false_eq_true, if_false, List.cons_append, hf.scan, Position.advance_nil]
  rw [Lexer.tokens_of_next hn]

/-! ## The tokens of an accepted source -/

/-- A reserved word is a keyword or a register. -/
theorem proper_of_ofWord {word : String} {kind : TokenKind} (h : TokenKind.ofWord? word = some kind) :
    kind ≠ .endOfInput ∧ ∀ fault, kind ≠ .malformed fault := by
  unfold TokenKind.ofWord? at h
  cases hk : Keyword.ofWord? word with
  | some k =>
    rw [hk] at h
    obtain rfl := Option.some.inj h
    exact ⟨nofun, fun _ => nofun⟩
  | none =>
    cases hr : Register.ofName? word with
    | some r =>
      rw [hk, hr] at h
      obtain rfl := Option.some.inj h
      exact ⟨nofun, fun _ => nofun⟩
    | none =>
      rw [hk, hr] at h
      obtain ⟨n, -, rfl⟩ := Option.map_eq_some_iff.1 h
      exact ⟨nofun, fun _ => nofun⟩

/-- What has the bytes of a token is not malformed, and not the end of the input. -/
theorem Fits.proper {kind : TokenKind} {first : UInt8} {more rest : List UInt8} (h : Fits kind first more rest) :
    kind ≠ .endOfInput ∧ ∀ fault, kind ≠ .malformed fault := by
  cases h with
  | word =>
    cases hw : TokenKind.ofWord? (asciiText (first :: more)) with
    | some kind => exact proper_of_ofWord hw
    | none => exact ⟨nofun, fun _ => nofun⟩
  | integer => exact ⟨nofun, fun _ => nofun⟩
  | fraction => exact ⟨nofun, fun _ => nofun⟩
  | string => exact ⟨nofun, fun _ => nofun⟩
  | pair => exact ⟨nofun, fun _ => nofun⟩
  | single => exact ⟨nofun, fun _ => nofun⟩

/-- A lexeme is not the end of the input, and not malformed. -/
theorem Lexeme.proper {lexeme : List Char} {kind : TokenKind} (h : Lexeme lexeme kind) :
    kind ≠ .endOfInput ∧ ∀ fault, kind ≠ .malformed fault := by
  obtain ⟨first, more, -, hf⟩ := h.exists_fits
  exact hf.proper

/-- A lexeme has a character. -/
theorem Lexeme.ne_nil {lexeme : List Char} {kind : TokenKind} (h : Lexeme lexeme kind) : lexeme ≠ [] := by
  rintro rfl
  obtain ⟨first, more, he, -⟩ := h.exists_fits
  cases he

/-- Only no characters have no bytes. -/
theorem encode_eq_nil {chars : List Char} (h : encode chars = []) : chars = [] := encode_injective (b := []) h

/-- What the lexer reads goes on as far as a token can: a longer text of a token would be read to its end. -/
theorem Fits.longest {kind : TokenKind} {first : UInt8} {more : List UInt8} {lexeme rest : List Char}
    (h : Fits kind first more (encode rest)) (he : encode lexeme = first :: more) : Longest lexeme rest := by
  intro behind kind' hbehind hl
  obtain ⟨first', more', he', hf⟩ := hl.exists_fits
  have hless : Fits kind first more (encode behind) := by
    obtain ⟨tail, rfl⟩ := hbehind
    exact h.shorten (by rw [encode_append]; exact List.prefix_append _ _)
  rw [encode_append, he] at he'
  obtain ⟨rfl, hmore⟩ := List.cons_eq_cons.1 he'
  have hscan := hless.scan .origin
  rw [show more ++ encode behind = more' ++ [] by rw [List.append_nil]; exact hmore, hf.scan] at hscan
  exact encode_eq_nil (congrArg Scan.rest hscan).symm

/-- Behind a gap of an accepted source stand the bytes of a token. -/
theorem Lexer.fitting {p : Position} {bytes gap more : List UInt8} {first : UInt8} {tokens : List Token}
    (hs : splitGap false bytes = (gap, first :: more))
    (h : wellFormedTokens (Lexer.tokens ⟨p, bytes, false⟩) = .ok tokens) : Scan.Fitting first more := by
  obtain ⟨t, l, hn, hk⟩ : ∃ t l, Lexer.next ⟨p, bytes, false⟩ = some (t, l) ∧
      t.kind = (Scan.scan (p.advance gap) first more).kind :=
    ⟨_, _, by simp only [Lexer.next, hs, Bool.false_eq_true, if_false]; rfl, rfl⟩
  rw [Lexer.tokens_of_next hn] at h
  obtain ⟨hkind, -⟩ := exists_of_wellFormedTokens_cons h
  rw [hk] at hkind
  exact Scan.fitting hkind

/-- The tokens of an accepted source tile it. -/
theorem Tiles.of_tokens : ∀ {chars : List Char} {p : Position} {tokens : List Token},
    wellFormedTokens (Lexer.tokens ⟨p, encode chars, false⟩) = .ok tokens → Tiles p chars tokens
  | chars, p, tokens, h => by
    obtain ⟨gap, rest, hc, hsplit, hgap⟩ := (skips chars).1
    cases rest with
    | nil =>
      rw [Lexer.tokens_of_gap hsplit] at h
      obtain rfl : [_] = tokens := Except.ok.inj h
      rw [hc, List.append_nil]
      exact .ended hgap
    | cons c rest =>
      obtain ⟨first, bytes, hb⟩ := exists_encode_cons c rest
      rw [hb] at hsplit
      obtain ⟨kind, more, left, rfl, hf⟩ := Lexer.fitting hsplit h
      obtain ⟨lexeme, behind, hcut, hlexeme, rfl, hl⟩ := hf.exists_lexeme hb
      rw [Lexer.tokens_of_fits hsplit hf] at h
      obtain ⟨-, tail, htail, rfl⟩ := exists_of_wellFormedTokens_cons h
      have hshorter : behind.length < chars.length := by
        have hpos := List.length_pos_iff.2 hl.ne_nil
        rw [hc, hcut, List.length_append, List.length_append]
        omega
      rw [hc, hcut, ← List.append_assoc, ← hlexeme, lossyText_encode]
      exact .token hgap hl (hf.longest hlexeme) rfl rfl (hlexeme ▸ of_tokens htail)
termination_by chars => chars.length

/-- A token that is not the last one has the text of a token. -/
theorem Tiles.lexeme_of_cons_cons {p : Position} {chars : List Char} {t u : Token} {tokens : List Token}
    (h : Tiles p chars (t :: u :: tokens)) : Lexeme t.lexeme.toList t.kind := by
  cases h with
  | token hgap hl =>
    rw [String.toList_ofList]
    exact hl

/-- A text is that of a token exactly if it is read alone as one token of that kind. -/
theorem lexeme_iff_tokenize {text : String} {kind : TokenKind} : Lexeme text.toList kind ↔
    tokenize (utf8Bytes text) = .ok [⟨kind, ⟨.origin, Position.origin.advance (utf8Bytes text)⟩, text⟩,
      ⟨.endOfInput, Span.point (Position.origin.advance (utf8Bytes text)), ""⟩] := by
  rw [tokenize, Lexer.ofBytes, utf8Bytes_eq_encode]
  constructor
  · intro h
    obtain ⟨first, more, he, hf⟩ := h.exists_fits
    have hsplit : splitGap false (encode text.toList) = ([], first :: more ++ []) := by
      have h0 := hf.splitGap_eq fun _ _ => nofun
      rwa [← he, List.append_nil] at h0 ⊢
    have hend : splitGap false [] = ([], []) := rfl
    rw [Lexer.tokens_of_fits hsplit hf, Lexer.tokens_of_gap hend, wellFormedTokens_cons h.proper.2,
      wellFormedTokens_cons (by intro fault hk; cases hk), ← he, lossyText_encode, String.ofList_toList]
    rfl
  · intro h
    exact (Tiles.of_tokens h).lexeme_of_cons_cons

end RegisterCompiler
