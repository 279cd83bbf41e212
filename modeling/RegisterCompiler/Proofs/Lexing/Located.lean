import Mathlib
import RegisterCompiler.Proofs.Lexing.Lossless

/-!
# Where tokens stand

A position is exact in a source if its line and its column are those that the bytes before it make. `Spread` is a reading of
any bytes, accepted or not: gaps and spans in a row, every span placed by the bytes before it, malformed tokens included. The
tokens of a lexer are spread over its bytes (`Lexer.spread`), so both ends of every span are exact, and the spans are in order
(`located_tokens`).
-/

namespace RegisterCompiler

/-! ## Positions and the bytes before them -/

/-- A position is the one that the bytes before it make. -/
structure Position.Exact (p : Position) (source : List UInt8) : Prop where
  /-- It lies in the source or at its end. -/
  inside : p.offset ≤ source.length
  /-- Its line counts the line feeds before it. -/
  line : p.line = 1 + (source.take p.offset).count lineFeed
  /-- Its column counts the bytes since the last of them. -/
  column : p.column = 1 + ((source.take p.offset).rtakeWhile (· != lineFeed)).length

/-- Reading from the start counts bytes, line feeds, and bytes since the last line feed. -/
theorem Position.advance_origin (bytes : List UInt8) : Position.origin.advance bytes =
    ⟨bytes.length, 1 + bytes.count lineFeed, 1 + (bytes.rtakeWhile (· != lineFeed)).length⟩ := by
  -- the last byte decides where the line begins, so the induction takes bytes off the end
  induction bytes using List.reverseRecOn with
  | nil => rfl
  | append_singleton bytes b ih =>
    rw [Position.advance_append, ih, Position.advance_cons, Position.advance_nil, Position.step, ← lineFeed]
    by_cases hb : b = lineFeed
    · rw [if_pos hb]
      simp [hb, Nat.add_assoc]
    · rw [if_neg hb]
      simp [hb, Nat.add_assoc, List.count_append]

/-- The position behind the first bytes of a source is exact. -/
theorem Position.exact_advance (before behind : List UInt8) :
    (Position.origin.advance before).Exact (before ++ behind) := by
  rw [Position.advance_origin]
  exact {
    inside := by simp
    line := by rw [List.take_left]
    column := by rw [List.take_left] }

/-- An exact position has a line, so it is not the position of a fault without a place. -/
theorem Position.Exact.ne_unknown {p : Position} {source : List UInt8} (h : p.Exact source) : p ≠ .unknown := by
  rintro rfl
  have hline : 0 = 1 + _ := h.line
  omega

/-! ## Any bytes, read to their end -/

/-- Tokens, well-formed or not, spread over bytes from a position on. -/
inductive Spread : Position → List UInt8 → List Token → Prop
  | ended {p : Position} {gap : List UInt8} : Spread p gap [⟨.endOfInput, Span.point (p.advance gap), ""⟩]
  | token {p start stop : Position} {gap spanned rest : List UInt8} {kind : TokenKind} {lexeme : String}
      {tokens : List Token} : kind ≠ .endOfInput → start = p.advance gap → stop = start.advance spanned →
      Spread stop rest tokens → Spread p (gap ++ spanned ++ rest) (⟨kind, ⟨start, stop⟩, lexeme⟩ :: tokens)

namespace Scan

/-- Digits are not the end of the input. -/
theorem integerKind_ne_endOfInput (digits : List UInt8) : integerKind digits ≠ .endOfInput := by
  unfold integerKind
  split <;> nofun

/-- A single byte is not the end of the input. -/
theorem kind_single_ne_endOfInput (first : UInt8) (bytes : List UInt8) : (single first bytes).kind ≠ .endOfInput := by
  unfold single
  cases Symbol.ofChar? (charOfByte first) <;> nofun

/-- No scan finds the end of the input: a byte begins every token it reads. -/
theorem kind_scan_ne_endOfInput (start : Position) (first : UInt8) (bytes : List UInt8) :
    (scan start first bytes).kind ≠ .endOfInput := by
  unfold scan
  split
  · unfold word
    cases hw : TokenKind.ofWord? (asciiText (first :: bytes.takeWhile isWordByte)) with
    | some kind => simpa [hw] using (proper_of_ofWord hw).1
    | none => simp [hw]
  · split
    · unfold number
      simp only
      split
      · split
        · nofun
        · exact integerKind_ne_endOfInput _
      · exact integerKind_ne_endOfInput _
    · split
      · unfold string
        split <;> nofun
      · unfold symbol
        split
        · exact kind_single_ne_endOfInput _ _
        · split
          · nofun
          · exact kind_single_ne_endOfInput _ _

end Scan

/-- The next token of a lexer that finds a byte behind the gap is what a scan finds. -/
theorem Lexer.tokens_of_byte {p : Position} {bytes gap more : List UInt8} {first : UInt8} {s : Scan}
    (h : splitGap false bytes = (gap, first :: more)) (hs : Scan.scan (p.advance gap) first more = s) :
    Lexer.tokens ⟨p, bytes, false⟩ =
      ⟨s.kind, ⟨p.advance (gap ++ s.skipped), (p.advance (gap ++ s.skipped)).advance s.spanned⟩, s.lexeme⟩ ::
        Lexer.tokens ⟨(p.advance (gap ++ s.skipped)).advance s.spanned, s.rest, false⟩ := by
  apply Lexer.tokens_of_next
  simp only [Lexer.next, h, hs, Bool.false_eq_true, if_false, Position.advance_append]

/-- The tokens of a lexer are spread over its bytes. What a scan skips in front of a span counts as gap. -/
theorem Lexer.spread (p : Position) (bytes : List UInt8) : Spread p bytes (Lexer.tokens ⟨p, bytes, false⟩) := by
  have hgap := append_splitGap false bytes
  generalize hsplit : splitGap false bytes = split at hgap
  obtain ⟨gap, rest⟩ := split
  cases rest with
  | nil =>
    obtain rfl : gap = bytes := by rw [← hgap, List.append_nil]
    rw [Lexer.tokens_of_gap hsplit]
    exact .ended
  | cons first more =>
    have hinput := Scan.input_scan (p.advance gap) first more
    have hless := Scan.rest_length_lt (p.advance gap) first more
    have hkind := Scan.kind_scan_ne_endOfInput (p.advance gap) first more
    generalize hs : Scan.scan (p.advance gap) first more = s at hinput hless hkind
    have hbytes : bytes = gap ++ s.skipped ++ s.spanned ++ s.rest := by
      rw [← hgap, ← hinput, Scan.input]
      simp
    have hshorter : s.rest.length < bytes.length := by
      rw [← hgap]
      exact hless.trans_le (List.sublist_append_right _ _).length_le
    rw [Lexer.tokens_of_byte hsplit hs]
    nth_rewrite 1 [hbytes]
    exact .token hkind rfl rfl (Lexer.spread _ s.rest)
termination_by bytes.length

namespace Spread

variable {p : Position} {bytes : List UInt8} {tokens : List Token}

/-- Both ends of every span are exact, in a source of which some bytes were read before. -/
theorem exact (h : Spread p bytes tokens) {before : List UInt8} (hp : p = Position.origin.advance before) :
    ∀ t ∈ tokens, t.span.start.Exact (before ++ bytes) ∧ t.span.stop.Exact (before ++ bytes) := by
  induction h generalizing before with
  | @ended p gap =>
    have hend := Position.exact_advance (before ++ gap) []
    rw [List.append_nil, Position.advance_append, ← hp] at hend
    exact List.forall_mem_singleton.2 ⟨hend, hend⟩
  | @token p start stop gap spanned rest kind lexeme tokens _ hstart hstop _ ih =>
    rw [hp, ← Position.advance_append] at hstart
    rw [hstart, ← Position.advance_append] at hstop
    have hsource : before ++ (gap ++ spanned ++ rest) = before ++ gap ++ spanned ++ rest := by simp
    rw [List.forall_mem_cons, hsource]
    refine ⟨⟨?_, ?_⟩, ih hstop⟩
    · rw [hstart, List.append_assoc _ spanned]
      exact Position.exact_advance _ _
    · rw [hstop]
      exact Position.exact_advance _ _

/-- A span starts behind what was read before. -/
theorem offset_le (h : Spread p bytes tokens) : ∀ t ∈ tokens, p.offset ≤ t.span.start.offset := by
  induction h with
  | @ended p gap => exact List.forall_mem_singleton.2 (p.offset_le_advance gap)
  | @token p start stop gap spanned rest kind lexeme tokens _ hstart hstop _ ih =>
    subst hstart hstop
    have hgap := p.offset_le_advance gap
    have hspanned := (p.advance gap).offset_le_advance spanned
    exact List.forall_mem_cons.2 ⟨hgap, fun t ht => hgap.trans (hspanned.trans (ih t ht))⟩

/-- Tokens do not end before they start. -/
theorem forward (h : Spread p bytes tokens) : ∀ t ∈ tokens, t.span.start.offset ≤ t.span.stop.offset := by
  induction h with
  | ended => exact List.forall_mem_singleton.2 (Nat.le_refl _)
  | @token p start stop gap spanned rest kind lexeme tokens _ hstart hstop _ ih =>
    subst hstop
    exact List.forall_mem_cons.2 ⟨start.offset_le_advance spanned, ih⟩

/-- Every token ends before the later ones start. -/
theorem ordered (h : Spread p bytes tokens) : tokens.Pairwise fun t u => t.span.stop.offset ≤ u.span.start.offset := by
  induction h with
  | ended => exact List.pairwise_singleton _ _
  | token _ _ _ h ih => exact List.pairwise_cons.2 ⟨h.offset_le, ih⟩

/-- The end of the input comes last, behind all bytes, and only there. -/
theorem ended_at (h : Spread p bytes tokens) :
    ∃ front, tokens = front ++ [⟨.endOfInput, Span.point (p.advance bytes), ""⟩] ∧
      ∀ t ∈ front, t.kind ≠ .endOfInput := by
  induction h with
  | ended => exact ⟨[], rfl, fun _ => nofun⟩
  | @token p start stop gap spanned rest kind lexeme tokens hkind hstart hstop _ ih =>
    obtain ⟨front, rfl, hfront⟩ := ih
    refine ⟨⟨kind, ⟨start, stop⟩, lexeme⟩ :: front, ?_, List.forall_mem_cons.2 ⟨hkind, hfront⟩⟩
    rw [Position.advance_append, Position.advance_append, ← hstart, ← hstop, List.cons_append]

end Spread

/-- Tokens stand where their spans say, in order. -/
structure Located (source : List UInt8) (tokens : List Token) : Prop where
  /-- Every span starts at an exact position. -/
  start : ∀ t ∈ tokens, t.span.start.Exact source
  /-- Every span ends at one. -/
  stop : ∀ t ∈ tokens, t.span.stop.Exact source
  /-- No span ends before it starts. -/
  forward : ∀ t ∈ tokens, t.span.start.offset ≤ t.span.stop.offset
  /-- No span ends behind the start of a later one. -/
  ordered : tokens.Pairwise fun t u => t.span.stop.offset ≤ u.span.start.offset

/-- Every token that is read from any bytes stands where its span says: the malformed ones, those behind them, and the end of
the input. -/
theorem located_tokens (source : List UInt8) : Located source (Lexer.ofBytes source).tokens := by
  have h := Lexer.spread .origin source
  have hexact : ∀ t ∈ (Lexer.ofBytes source).tokens, t.span.start.Exact ([] ++ source) ∧ t.span.stop.Exact ([] ++ source) :=
    h.exact rfl
  exact { start t ht := (hexact t ht).1, stop t ht := (hexact t ht).2, forward := h.forward, ordered := h.ordered }

/-- A byte that begins no token, a line feed, a string with a bad escape, which is placed at its backslash, and a number. -/
example : (Lexer.ofBytes [0xFF, lineFeed, quoteByte, backslashByte, 0x71, 0x39]).tokens.map (fun t => t.span.start) =
    [⟨0, 1, 1⟩, ⟨3, 2, 2⟩, ⟨5, 2, 4⟩, ⟨6, 2, 5⟩] := by decide +kernel

end RegisterCompiler
