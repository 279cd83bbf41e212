import Mathlib
import RegisterCompiler.Proofs.Joining.Moved
import RegisterCompiler.Proofs.Lexing.Rows

/-!
# The tokens of two sources in a row

An accepted source consists of gaps and tokens (`Consists`), wherever it begins (`Consists.moved`). A line feed ends the token
or the comment in front of it, so behind one source and a line feed another is read as if it began there
(`Consists.joined`): nothing is carried over the line feed.
-/

namespace RegisterCompiler

/-! ## What an accepted source consists of -/

/-- Gaps and tokens in a row, the bytes of each token standing in front of bytes with which it does not go on. -/
inductive Consists : Position → List UInt8 → List Token → Prop
  | ended {p : Position} {bytes gap : List UInt8} : splitGap false bytes = (gap, []) →
      Consists p bytes [⟨.endOfInput, Span.point (p.advance gap), ""⟩]
  | token {p : Position} {bytes gap more rest : List UInt8} {first : UInt8} {kind : TokenKind} {tokens : List Token} :
      splitGap false bytes = (gap, first :: more ++ rest) → Fits kind first more rest →
      Consists ((p.advance gap).advance (first :: more)) rest tokens →
      Consists p bytes (⟨kind, ⟨p.advance gap, (p.advance gap).advance (first :: more)⟩, lossyText (first :: more)⟩ :: tokens)

namespace Consists

variable {p : Position} {bytes : List UInt8} {tokens : List Token}

/-- A source consists of the tokens that are accepted. -/
theorem of_tokens {p : Position} {bytes : List UInt8} {tokens : List Token}
    (h : wellFormedTokens (Lexer.tokens ⟨p, bytes, false⟩) = .ok tokens) : Consists p bytes tokens := by
  have hgap := append_splitGap false bytes
  generalize hsplit : splitGap false bytes = split at hgap
  obtain ⟨gap, rest⟩ := split
  cases rest with
  | nil =>
    rw [Lexer.tokens_of_gap hsplit] at h
    obtain rfl : [_] = tokens := Except.ok.inj h
    exact .ended hsplit
  | cons first bytes' =>
    obtain ⟨kind, more, rest, rfl, hf⟩ := Lexer.fitting hsplit h
    rw [Lexer.tokens_of_fits hsplit hf] at h
    obtain ⟨-, tail, htail, rfl⟩ := exists_of_wellFormedTokens_cons h
    have hshorter : rest.length < bytes.length := by
      rw [← hgap]
      simp only [List.length_append, List.length_cons]
      omega
    exact .token hsplit hf (of_tokens htail)
termination_by bytes.length

/-- What a source consists of is accepted. -/
theorem tokens_eq (h : Consists p bytes tokens) : wellFormedTokens (Lexer.tokens ⟨p, bytes, false⟩) = .ok tokens := by
  induction h with
  | ended hsplit =>
    rw [Lexer.tokens_of_gap hsplit]
    rfl
  | token hsplit hf _ ih =>
    rw [Lexer.tokens_of_fits hsplit hf, wellFormedTokens_cons hf.proper.2, ih]
    rfl

/-- Tokens do not hang on the position from which they are read. -/
theorem moved (h : Consists p bytes tokens) (d : Shift) : Consists (p.moved d) bytes (tokens.map (Token.moved d)) := by
  induction h with
  | @ended p bytes gap hsplit =>
    have hend := Consists.ended (p := p.moved d) hsplit
    rwa [Position.advance_moved] at hend
  | @token p bytes gap more rest first kind tokens hsplit hf _ ih =>
    have htoken := Consists.token (p := p.moved d) hsplit hf (by rwa [Position.advance_moved, Position.advance_moved])
    rwa [Position.advance_moved, Position.advance_moved] at htoken

end Consists

/-! ## A line feed between two sources -/

/-- What is skipped of two sources with a line feed between them: the gap of the first, and if nothing is left of it, the
line feed and the gap of the second. -/
theorem splitGap_append_lineFeed (comment : Bool) (bytes behind : List UInt8) :
    splitGap comment (bytes ++ lineFeed :: behind) =
      match splitGap comment bytes with
      | (gap, []) => (gap ++ lineFeed :: (splitGap false behind).1, (splitGap false behind).2)
      | (gap, first :: rest) => (gap, first :: rest ++ lineFeed :: behind) := by
  induction bytes generalizing comment with
  | nil => cases comment <;> [exact splitGap_blank (by decide) behind; exact splitGap_comment_lineFeed behind]
  | cons b bytes ih =>
    have hcontinued (c : Bool) : (splitGap c (bytes ++ lineFeed :: behind)).map (b :: ·) id =
        match (splitGap c bytes).map (b :: ·) id with
        | (gap, []) => (gap ++ lineFeed :: (splitGap false behind).1, (splitGap false behind).2)
        | (gap, first :: rest) => (gap, first :: rest ++ lineFeed :: behind) := by
      rw [ih]
      generalize splitGap c bytes = split
      obtain ⟨gap, _ | ⟨first, rest⟩⟩ := split <;> rfl
    -- behind the end of the first source stands a line feed, so no slash there begins a comment
    have hslash : (bytes ++ lineFeed :: behind).head? = some slashByte ↔ bytes.head? = some slashByte := by
      cases bytes with
      | nil => exact iff_of_false (by decide : some lineFeed ≠ some slashByte) nofun
      | cons c bytes => rfl
    rw [List.cons_append, splitGap, splitGap]
    simp only [hcontinued, hslash]
    split_ifs <;> rfl

namespace Consists

variable {p : Position} {a b : List UInt8} {ta tb : List Token}

/-- In front of a source may stand what ends with a line feed and has no token. -/
theorem behind_gap {gap : List UInt8} (hgap : splitGap false a = (gap, []))
    (hb : Consists (p.advance (a ++ [lineFeed])) b tb) : Consists p (a ++ lineFeed :: b) tb := by
  obtain rfl : gap = a := by
    have h := append_splitGap false a
    rwa [hgap, List.append_nil] at h
  have hsplit := splitGap_append_lineFeed false gap b
  rw [hgap] at hsplit
  have hplace (skipped : List UInt8) : (p.advance (gap ++ [lineFeed])).advance skipped =
      p.advance (gap ++ lineFeed :: skipped) := by
    rw [← Position.advance_append, List.append_assoc, List.singleton_append]
  cases hb with
  | @ended _ _ skipped hs =>
    rw [hplace]
    exact .ended (by rw [hsplit, hs])
  | @token _ _ skipped more rest first kind tokens hs hf htokens =>
    rw [hplace] at htokens ⊢
    exact .token (by rw [hsplit, hs]) hf htokens

/-- Two sources with a line feed between them consist of the tokens of both, without the first end of the input. -/
theorem joined (ha : Consists p a ta) (hb : Consists (p.advance (a ++ [lineFeed])) b tb) :
    Consists p (a ++ lineFeed :: b) (beforeEnd ta ++ tb) := by
  induction ha with
  | ended hgap => exact behind_gap hgap hb
  | @token p bytes gap more rest first kind tokens hsplit hf htokens ih =>
    have hbytes : bytes = gap ++ (first :: more ++ rest) := by rw [← append_splitGap false bytes, hsplit]
    have hblank : BeginsBlank (lineFeed :: b) := by
      rintro c ⟨⟩
      decide
    have hjoined : splitGap false (bytes ++ lineFeed :: b) = (gap, first :: more ++ (rest ++ lineFeed :: b)) := by
      rw [splitGap_append_lineFeed false bytes b, hsplit, List.cons_append, List.cons_append, ← List.append_assoc]
      rfl
    have hrest := ih (by
      rwa [hbytes, List.append_assoc, List.append_assoc, Position.advance_append, Position.advance_append] at hb)
    have hkind : kind ≠ .endOfInput := hf.proper.1
    rw [beforeEnd, List.takeWhile_cons_of_pos (by simpa using hkind)]
    exact .token hjoined (hf.append_blank hblank) hrest

end Consists

/-- Two sources with a line feed between them are read as the tokens of both, those of the second moved behind the first. -/
theorem tokenize_joined {a b : List UInt8} {ta tb : List Token} (ha : tokenize a = .ok ta) (hb : tokenize b = .ok tb) :
    tokenize (a ++ lineFeed :: b) = .ok (beforeEnd ta ++ tb.map (Token.moved (.behind a))) := by
  have hmoved := (Consists.of_tokens hb).moved (.behind a)
  rw [Position.origin_moved] at hmoved
  exact ((Consists.of_tokens ha).joined hmoved).tokens_eq

end RegisterCompiler
