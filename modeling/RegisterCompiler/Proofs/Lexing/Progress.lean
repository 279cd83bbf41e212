import RegisterCompiler.Proofs.Lexing.Located

/-!
# A lexer comes to its end

`Lexer.after l n` is the lexer behind `n` calls of `next`. One call reads at least a byte, unless it answers with the end of the
input (`Lexer.reads_of_next`), and so the calls answer with the tokens of the lexer one by one, and then with nothing
(`Lexer.answer_eq`). The tokens of any bytes are few, end properly, and decide what `tokenize` comes to
(`Lexer.progress_ofBytes`).
-/

namespace RegisterCompiler

/-- A token that stands for a fault. -/
def Token.Malformed (t : Token) : Prop := ∃ fault, t.kind = .malformed fault

namespace Lexer

/-- The lexer behind a number of calls; where nothing is left, a call leaves it as it is. -/
def after (l : Lexer) : Nat → Lexer
  | 0 => l
  | n + 1 =>
    match l.next with
    | none => l
    | some (_, l') => l'.after n

/-- What the call of a number, counted from zero, answers with. -/
def answer (l : Lexer) (n : Nat) : Option Token := (l.after n).next.map Prod.fst

/-! ## One call -/

/-- A lexer without a next token has none. -/
theorem tokens_of_next_eq_none {l : Lexer} (h : l.next = none) : l.tokens = [] := by
  rw [tokens]
  split
  · rfl
  · rename_i t l' hn
    rw [hn] at h
    cases h

/-- A call reads at least a byte, unless it answers with the end of the input. -/
theorem reads_of_next {l l' : Lexer} {t : Token} (h : l.next = some (t, l')) (ht : t.kind ≠ .endOfInput) :
    ∃ read, read ≠ [] ∧ l.bytes = read ++ l'.bytes := by
  have hgap := append_splitGap false l.bytes
  unfold next at h
  split at h
  · cases h
  · simp only at h
    split at h
    · obtain ⟨rfl, -⟩ := Prod.mk.inj (Option.some.inj h)
      exact absurd rfl ht
    · rename_i first bytes hrest
      have hinput := Scan.input_scan (l.position.advance (splitGap false l.bytes).1) first bytes
      have hspanned := Scan.spanned_ne_nil (l.position.advance (splitGap false l.bytes).1) first bytes
      generalize Scan.scan (l.position.advance (splitGap false l.bytes).1) first bytes = s at h hinput hspanned
      obtain ⟨-, rfl⟩ := Prod.mk.inj (Option.some.inj h)
      refine ⟨(splitGap false l.bytes).1 ++ (s.skipped ++ s.spanned), by simp [hspanned], hgap.symm.trans ?_⟩
      rw [hrest, ← hinput, Scan.input, List.append_assoc (splitGap false l.bytes).1]

/-! ## Calls one after another -/

/-- The calls answer with the tokens in their order, and then with nothing. -/
theorem answer_eq (l : Lexer) (n : Nat) : l.answer n = l.tokens[n]? := by
  induction n generalizing l with
  | zero =>
    rw [answer, after]
    cases h : l.next with
    | none =>
      rw [tokens_of_next_eq_none h]
      rfl
    | some p =>
      rw [tokens_of_next h]
      rfl
  | succ n ih =>
    rw [answer, after]
    cases h : l.next with
    | none =>
      rw [tokens_of_next_eq_none h, h]
      rfl
    | some p =>
      rw [tokens_of_next h, List.getElem?_cons_succ]
      exact ih p.2

/-- There are no more tokens than bytes left, and one for the end of the input. -/
theorem length_tokens_le (l : Lexer) : l.tokens.length ≤ l.size := by
  cases h : l.next with
  | none =>
    rw [tokens_of_next_eq_none h]
    exact Nat.zero_le _
  | some p =>
    have hless := size_lt_of_next h
    rw [tokens_of_next h, List.length_cons]
    exact (length_tokens_le p.2).trans_lt hless
termination_by l.size

end Lexer

/-! ## The first fault -/

/-- Tokens are passed on exactly if none of them is malformed. -/
theorem wellFormedTokens_eq_ok_iff {tokens result : List Token} :
    wellFormedTokens tokens = .ok result ↔ result = tokens ∧ ∀ t ∈ tokens, ¬t.Malformed := by
  induction tokens generalizing result with
  | nil => simp [wellFormedTokens, eq_comm]
  | cons t rest ih =>
    constructor
    · intro h
      obtain ⟨ht, tail, htail, rfl⟩ := exists_of_wellFormedTokens_cons h
      obtain ⟨rfl, hrest⟩ := ih.1 htail
      exact ⟨rfl, List.forall_mem_cons.2 ⟨not_exists.2 ht, hrest⟩⟩
    · rintro ⟨rfl, hall⟩
      obtain ⟨ht, hrest⟩ := List.forall_mem_cons.1 hall
      rw [wellFormedTokens_cons fun fault hfault => ht ⟨fault, hfault⟩, ih.2 ⟨rfl, hrest⟩]
      rfl

/-- The error is that of the first malformed token, at the start of its span. -/
theorem wellFormedTokens_eq_error_iff {tokens : List Token} {e : LexError} :
    wellFormedTokens tokens = .error e ↔ ∃ (front : List Token) (t : Token) (rest : List Token), tokens = front ++ t :: rest ∧
      (∀ u ∈ front, ¬u.Malformed) ∧ t.kind = .malformed e.fault ∧ t.span.start = e.position := by
  constructor
  · intro h
    induction tokens with
    | nil => cases h
    | cons t rest ih =>
      by_cases ht : t.Malformed
      · obtain ⟨fault, hfault⟩ := ht
        rw [wellFormedTokens, hfault] at h
        obtain rfl := Except.error.inj h
        exact ⟨[], t, rest, rfl, List.forall_mem_nil _, hfault, rfl⟩
      · rw [wellFormedTokens_cons fun fault hfault => ht ⟨fault, hfault⟩] at h
        cases hrest : wellFormedTokens rest with
        | ok tail =>
          rw [hrest] at h
          cases h
        | error e' =>
          rw [hrest] at h
          obtain rfl : e' = e := Except.error.inj h
          obtain ⟨front, u, behind, rfl, hfront, hu⟩ := ih hrest
          exact ⟨t :: front, u, behind, rfl, List.forall_mem_cons.2 ⟨ht, hfront⟩, hu⟩
  · rintro ⟨front, t, rest, rfl, hfront, hkind, hstart⟩
    induction front with
    | nil =>
      rw [List.nil_append, wellFormedTokens, hkind]
      simp [hstart]
    | cons u front ih =>
      obtain ⟨hu, hfront⟩ := List.forall_mem_cons.1 hfront
      rw [List.cons_append, wellFormedTokens_cons fun fault hfault => hu ⟨fault, hfault⟩, ih hfront]
      rfl

/-! ## Any bytes -/

/-- A lexer makes progress on a source and ends with the given tokens. -/
structure Lexer.Progress (source : List UInt8) (tokens : List Token) : Prop where
  /-- The calls answer with these tokens, one by one, and with nothing behind the last one, however often the lexer is called. -/
  answers : ∀ n, (ofBytes source).answer n = tokens[n]?
  /-- There is at most one more token than there are bytes. -/
  few : tokens.length ≤ source.length + 1
  /-- The last token is the end of the input, and no other one is. -/
  ended : ∃ (front : List Token) (last : Token),
    tokens = front ++ [last] ∧ last.kind = .endOfInput ∧ ∀ t ∈ front, t.kind ≠ .endOfInput
  /-- A call that answers with another token, malformed or not, takes at least one byte off what was left. -/
  reads : ∀ n t l, ((ofBytes source).after n).next = some (t, l) → t.kind ≠ .endOfInput →
    ∃ read, read ≠ [] ∧ ((ofBytes source).after n).bytes = read ++ l.bytes
  /-- Behind the end of the input every call answers with nothing. -/
  silent : ∀ n t, (ofBytes source).answer n = some t → t.kind = .endOfInput → ∀ m, n < m → (ofBytes source).answer m = none
  /-- The source is accepted, with all its tokens, exactly if none is malformed. -/
  accepted : ∀ result, tokenize source = .ok result ↔ result = tokens ∧ ∀ t ∈ tokens, ¬t.Malformed
  /-- It is refused with the fault and the start of the first malformed token, exactly if there is one. -/
  refused : ∀ e, tokenize source = .error e ↔ ∃ (front : List Token) (t : Token) (rest : List Token),
    tokens = front ++ t :: rest ∧ (∀ u ∈ front, ¬u.Malformed) ∧ t.kind = .malformed e.fault ∧ t.span.start = e.position

/-- A lexer makes progress on any bytes and ends properly. -/
theorem Lexer.progress_ofBytes (source : List UInt8) : Progress source (ofBytes source).tokens := by
  obtain ⟨front, htokens, hfront⟩ := (spread .origin source).ended_at
  have htokens : (ofBytes source).tokens = front ++ [_] := htokens
  constructor
  case answers => exact answer_eq _
  case few => exact length_tokens_le (ofBytes source)
  case ended => exact ⟨front, _, htokens, rfl, hfront⟩
  case reads => exact fun n t l h ht => reads_of_next h ht
  case silent =>
    intro n t hn ht m hm
    rw [answer_eq, htokens] at hn ⊢
    -- the token is not among the first ones, so its call is the last one that is answered
    have hle : front.length ≤ n := by
      by_contra hlt
      rw [List.getElem?_append_left (Nat.lt_of_not_le hlt)] at hn
      exact hfront t (List.mem_of_getElem? hn) ht
    rw [List.getElem?_eq_none_iff, List.length_append, List.length_singleton]
    omega
  case accepted => exact fun result => wellFormedTokens_eq_ok_iff
  case refused => exact fun e => wellFormedTokens_eq_error_iff

/-- An escape that the input ends in: a malformed token, the end of the input, and nothing more. -/
example : (List.range 4).map (fun n => ((Lexer.ofBytes [quoteByte, backslashByte]).answer n).map Token.kind) =
    [some (.malformed .endInEscape), some .endOfInput, none, none] := by decide +kernel

end RegisterCompiler
