import Mathlib
import RegisterCompiler.Proofs.Lexing.Tiling

/-!
# Lexing loses nothing

An accepted source is its tokens and the gaps between them: every lexeme is the text of its span, the spans are in order, the
end of the input comes last and only there, every lexeme read alone gives the same kind, and no token could have been longer
(`lossless_of_tokenize`). All of it follows from the tokens tiling the source, by induction on the tiling.
-/

namespace RegisterCompiler

/-- The bytes of a source that a span covers. -/
def Span.bytes (span : Span) (source : List UInt8) : List UInt8 :=
  (source.take span.stop.offset).drop span.start.offset

/-- Tokens are a reading of a source that loses nothing and takes the longest match. -/
structure Lossless (source : String) (tokens : List Token) : Prop where
  /-- The source is gaps and lexemes in a row, and spans are where lexemes stand. -/
  tiles : Tiles .origin source.toList tokens
  /-- Every lexeme is the text of its span. -/
  covered : ∀ t ∈ tokens, t.span.bytes (utf8Bytes source) = utf8Bytes t.lexeme
  /-- No span ends before it starts. -/
  forward : ∀ t ∈ tokens, t.span.start.offset ≤ t.span.stop.offset
  /-- The spans are in order and do not overlap. -/
  ordered : tokens.Pairwise fun t u => t.span.stop.offset ≤ u.span.start.offset
  /-- Exactly the last token is the end of the input, an empty span at the end of the source. -/
  ended : ∃ front, tokens = front ++ [⟨.endOfInput, Span.point (Position.origin.advance (utf8Bytes source)), ""⟩] ∧
    ∀ t ∈ front, t.kind ≠ .endOfInput
  /-- Every other lexeme read alone is one token of the same kind. -/
  alone : ∀ t ∈ tokens, t.kind ≠ .endOfInput → tokenize (utf8Bytes t.lexeme) =
    .ok [⟨t.kind, ⟨.origin, Position.origin.advance (utf8Bytes t.lexeme)⟩, t.lexeme⟩,
      ⟨.endOfInput, Span.point (Position.origin.advance (utf8Bytes t.lexeme)), ""⟩]
  /-- No text of a token with which the source goes on at a lexeme is longer than the lexeme. The texts of tokens are those
  that are read alone as one token (`lexeme_iff_tokenize`). -/
  longest : ∀ t ∈ tokens, ∀ (text : String) (kind : TokenKind), Lexeme text.toList kind →
    utf8Bytes text <+: (utf8Bytes source).drop t.span.start.offset → text.length ≤ t.lexeme.length

/-- Passing bytes adds their number to the offset. -/
theorem Position.offset_advance (p : Position) (bytes : List UInt8) : (p.advance bytes).offset = p.offset + bytes.length := by
  induction bytes generalizing p with
  | nil => rfl
  | cons b bytes ih =>
    have hstep : (p.step b).offset = p.offset + 1 := by
      rw [Position.step]
      split <;> rfl
    rw [Position.advance_cons, ih, hstep, List.length_cons]
    omega

/-- Passing bytes does not go back. -/
theorem Position.offset_le_advance (p : Position) (bytes : List UInt8) : p.offset ≤ (p.advance bytes).offset := by
  rw [Position.offset_advance]
  exact Nat.le_add_right _ _

/-- Behind some bytes of a source and more of them a position counts both. -/
theorem Position.offset_behind {p : Position} {before : List UInt8} (hp : p.offset = before.length) (bytes : List UInt8) :
    (p.advance bytes).offset = (before ++ bytes).length := by
  rw [Position.offset_advance, hp, List.length_append]

/-- The bytes of a span between two others. -/
theorem Span.bytes_append {span : Span} {before text after : List UInt8} (hstart : span.start.offset = before.length)
    (hstop : span.stop.offset = before.length + text.length) : span.bytes (before ++ (text ++ after)) = text := by
  rw [Span.bytes, hstart, hstop, ← List.append_assoc, ← List.length_append, List.take_left, List.drop_left]

namespace Tiles

variable {p : Position} {chars : List Char} {tokens : List Token}

/-- A lexeme is what stands at its span, in a source of which some bytes were read before. -/
theorem covered (h : Tiles p chars tokens) {before : List UInt8} (hp : p.offset = before.length) :
    ∀ t ∈ tokens, t.span.bytes (before ++ encode chars) = utf8Bytes t.lexeme := by
  induction h generalizing before with
  | @ended p gap hgap =>
    intro t ht
    obtain rfl := List.mem_singleton.1 ht
    have hoff := Position.offset_behind hp (encode gap)
    have h : (Span.point (p.advance (encode gap))).bytes (before ++ encode gap ++ ([] ++ [])) = [] :=
      Span.bytes_append hoff hoff
    rwa [List.append_nil, List.append_nil] at h
  | @token p start stop gap lexeme rest kind tokens hgap hl hlong hstart hstop _ ih =>
    subst hstart hstop
    have hoff := Position.offset_behind hp (encode gap)
    have hsource : before ++ encode (gap ++ lexeme ++ rest) = before ++ encode gap ++ (encode lexeme ++ encode rest) := by
      simp
    rw [List.forall_mem_cons, hsource]
    refine ⟨?_, ?_⟩
    · rw [utf8Bytes_eq_encode, String.toList_ofList]
      exact Span.bytes_append hoff (by rw [Position.offset_advance, hoff])
    · rw [← List.append_assoc]
      exact ih (Position.offset_behind hoff (encode lexeme))

/-- A lexeme starts behind what was read before. -/
theorem offset_le (h : Tiles p chars tokens) : ∀ t ∈ tokens, p.offset ≤ t.span.start.offset := by
  induction h with
  | @ended p gap hgap => exact List.forall_mem_singleton.2 (p.offset_le_advance (encode gap))
  | @token p start stop gap lexeme rest kind tokens hgap hl hlong hstart hstop _ ih =>
    subst hstart hstop
    have hstart := p.offset_le_advance (encode gap)
    have hstop := (p.advance (encode gap)).offset_le_advance (encode lexeme)
    exact List.forall_mem_cons.2 ⟨hstart, fun t ht => hstart.trans (hstop.trans (ih t ht))⟩

/-- Tokens do not end before they start. -/
theorem forward (h : Tiles p chars tokens) : ∀ t ∈ tokens, t.span.start.offset ≤ t.span.stop.offset := by
  induction h with
  | ended => exact List.forall_mem_singleton.2 (Nat.le_refl _)
  | @token p start stop gap lexeme rest kind tokens hgap hl hlong hstart hstop _ ih =>
    subst hstop
    exact List.forall_mem_cons.2 ⟨start.offset_le_advance (encode lexeme), ih⟩

/-- Every token ends before the later ones start. -/
theorem ordered (h : Tiles p chars tokens) : tokens.Pairwise fun t u => t.span.stop.offset ≤ u.span.start.offset := by
  induction h with
  | ended => exact List.pairwise_singleton _ _
  | token _ _ _ _ _ h ih => exact List.pairwise_cons.2 ⟨h.offset_le, ih⟩

/-- Every token but the end has a lexeme of its kind. -/
theorem lexeme (h : Tiles p chars tokens) : ∀ t ∈ tokens, t.kind ≠ .endOfInput → Lexeme t.lexeme.toList t.kind := by
  induction h with
  | ended => exact List.forall_mem_singleton.2 fun hk => absurd rfl hk
  | token _ hl _ _ _ _ ih => exact List.forall_mem_cons.2 ⟨fun _ => by rw [String.toList_ofList]; exact hl, ih⟩

/-- The last token, and only it, is the end, and it stands behind all characters. -/
theorem ended_at (h : Tiles p chars tokens) :
    ∃ front, tokens = front ++ [⟨.endOfInput, Span.point (p.advance (encode chars)), ""⟩] ∧
      ∀ t ∈ front, t.kind ≠ .endOfInput := by
  induction h with
  | ended => exact ⟨[], rfl, fun _ => nofun⟩
  | @token p start stop gap lexeme rest kind tokens _ hl _ hstart hstop _ ih =>
    obtain ⟨front, rfl, hfront⟩ := ih
    refine ⟨⟨kind, ⟨start, stop⟩, String.ofList lexeme⟩ :: front, ?_, List.forall_mem_cons.2 ⟨hl.proper.1, hfront⟩⟩
    rw [encode_append, encode_append, Position.advance_append, Position.advance_append, ← hstart, ← hstop, List.cons_append]

/-- No text of a token with which the source goes on at a lexeme is longer than the lexeme. -/
theorem longest (h : Tiles p chars tokens) {before : List UInt8} (hp : p.offset = before.length) :
    ∀ t ∈ tokens, ∀ (text : String) (kind : TokenKind), Lexeme text.toList kind →
      utf8Bytes text <+: (before ++ encode chars).drop t.span.start.offset → text.length ≤ t.lexeme.length := by
  induction h generalizing before with
  | @ended p gap hgap =>
    refine List.forall_mem_singleton.2 fun text kind hl htext => ?_
    have hoff : (Span.point (p.advance (encode gap))).start.offset = _ := Position.offset_behind hp (encode gap)
    rw [hoff, List.drop_length, List.prefix_nil, utf8Bytes_eq_encode] at htext
    exact absurd (encode_eq_nil htext) hl.ne_nil
  | @token p start stop gap lexeme rest kind tokens hgap hl hlong hstart hstop _ ih =>
    subst hstart hstop
    have hoff := Position.offset_behind hp (encode gap)
    have hsource : before ++ encode (gap ++ lexeme ++ rest) = before ++ encode gap ++ encode (lexeme ++ rest) := by
      simp
    rw [List.forall_mem_cons, hsource]
    refine ⟨fun text kind' hl' htext => ?_, ?_⟩
    · rw [hoff, List.drop_left, utf8Bytes_eq_encode] at htext
      have hprefix : text.toList <+: lexeme ++ rest := isPrefix_of_encode htext
      rw [← String.length_toList, String.length_ofList]
      by_contra hlt
      obtain ⟨more, hmore⟩ := List.prefix_of_prefix_length_le (List.prefix_append lexeme rest) hprefix (by omega)
      rw [← hmore] at hl' hlt hprefix
      rw [hlong more kind' ((List.prefix_append_right_inj lexeme).1 hprefix) hl'] at hlt
      simp at hlt
    · rw [encode_append, ← List.append_assoc]
      exact ih (Position.offset_behind hoff (encode lexeme))

end Tiles

/-- What is accepted is read without loss, and each token as far as one can go. -/
theorem lossless_of_tokenize {source : String} {tokens : List Token} (h : tokenize (utf8Bytes source) = .ok tokens) :
    Lossless source tokens := by
  rw [tokenize, Lexer.ofBytes, utf8Bytes_eq_encode] at h
  have ht := Tiles.of_tokens h
  have horigin : Position.origin.offset = ([] : List UInt8).length := rfl
  exact {
    tiles := ht
    covered := utf8Bytes_eq_encode source ▸ ht.covered horigin
    forward := ht.forward
    ordered := ht.ordered
    ended := utf8Bytes_eq_encode source ▸ ht.ended_at
    alone := fun t hm hk => lexeme_iff_tokenize.1 (ht.lexeme t hm hk)
    longest := utf8Bytes_eq_encode source ▸ ht.longest horigin }

/-- A source with a comment, a symbol of two bytes, and characters of two bytes in the comment and in a string. -/
def sampleSource : String := "r8/=2// ä\n\"é\""

/-- The tokens of the sample. -/
def sampleTokens : List Token :=
  [⟨.register .r8, ⟨⟨0, 1, 1⟩, ⟨2, 1, 3⟩⟩, "r8"⟩, ⟨.symbol (.update .div), ⟨⟨2, 1, 3⟩, ⟨4, 1, 5⟩⟩, "/="⟩,
    ⟨.integer 2, ⟨⟨4, 1, 5⟩, ⟨5, 1, 6⟩⟩, "2"⟩, ⟨.text "é", ⟨⟨11, 2, 1⟩, ⟨15, 2, 5⟩⟩, "\"é\""⟩,
    ⟨.endOfInput, Span.point ⟨15, 2, 5⟩, ""⟩]

/-- The tokens of `sampleSource` cover it. -/
theorem lossless_of_tokenize_sample :
    tokenize (utf8Bytes sampleSource) = .ok sampleTokens ∧ Lossless sampleSource sampleTokens :=
  ⟨by decide +kernel, lossless_of_tokenize (by decide +kernel)⟩

end RegisterCompiler
