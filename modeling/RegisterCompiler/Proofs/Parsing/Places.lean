import Mathlib
import RegisterCompiler.Proofs.Faults
import RegisterCompiler.Proofs.Lexing.Located
import RegisterCompiler.Proofs.Parsing.Lookahead

/-!
# Where a program stands in its tokens

Every statement of a parsed program, at any depth, is written by a stretch of the tokens and begins where the first of them does
(`standsIn_of_parseTokens`), and so is every condition in it. An error of the parser stands where a token begins
(`exists_start_of_parseTokens`), be it the end of the input.
-/

namespace RegisterCompiler

/-- A statement is written by a stretch of tokens and begins where the first of them does. -/
def Statement.StandsIn (tokens : List Token) (st : Statement) : Prop :=
  ∃ d : Grammar.Statement, d.tree = st ∧ d.tokens <:+: tokens ∧ st.position = Grammar.start d.tokens

/-- A condition is written by a stretch of tokens and begins where the first of them does. -/
def Condition.StandsIn (tokens : List Token) (c : Condition) : Prop :=
  ∃ d : Grammar.Condition, d.tree = c ∧ d.tokens <:+: tokens ∧ c.position = Grammar.start d.tokens

/-- A statement stands in more tokens around those it stands in. -/
theorem Statement.StandsIn.mono {tokens more : List Token} {st : Statement} (h : st.StandsIn tokens) (hmore : tokens <:+: more) :
    st.StandsIn more := by
  obtain ⟨d, htree, htokens, hposition⟩ := h
  exact ⟨d, htree, htokens.trans hmore, hposition⟩

/-- A condition stands in more tokens around those it stands in. -/
theorem Condition.StandsIn.mono {tokens more : List Token} {c : Condition} (h : c.StandsIn tokens) (hmore : tokens <:+: more) :
    c.StandsIn more := by
  obtain ⟨d, htree, htokens, hposition⟩ := h
  exact ⟨d, htree, htokens.trans hmore, hposition⟩

/-- A statement that stands in tokens begins where one of them does. -/
theorem Statement.StandsIn.exists_start {tokens : List Token} {st : Statement} (h : st.StandsIn tokens) :
    ∃ t ∈ tokens, t.span.start = st.position := by
  obtain ⟨d, -, htokens, hposition⟩ := h
  obtain ⟨t, rest, hfirst, -⟩ := d.exists_first
  exact ⟨t, htokens.subset (hfirst ▸ List.mem_cons_self), by rw [hposition, hfirst]; rfl⟩

/-- A condition begins where one of the tokens does. -/
theorem Condition.StandsIn.exists_start {tokens : List Token} {c : Condition} (h : c.StandsIn tokens) :
    ∃ t ∈ tokens, t.span.start = c.position := by
  obtain ⟨d, -, htokens, hposition⟩ := h
  obtain ⟨t, rest, hfirst⟩ : ∃ t rest, d.tokens = t :: rest := List.exists_cons_of_ne_nil (by simp [Grammar.Condition.tokens])
  exact ⟨t, htokens.subset (hfirst ▸ List.mem_cons_self), by rw [hposition, hfirst]; rfl⟩

namespace Grammar

/-- The statement of a derivation begins where its tokens do. -/
theorem Statement.position_tree (d : Statement) : d.tree.position = Grammar.start d.tokens := by
  cases d <;> (rw [Statement.tree]; rfl)

/-- The statement of a derivation stands in its tokens. -/
theorem Statement.standsIn (d : Statement) : d.tree.StandsIn d.tokens := ⟨d, rfl, List.infix_rfl, d.position_tree⟩

/-- The condition of a derivation stands in its tokens. -/
theorem Condition.standsIn (d : Condition) : d.tree.StandsIn d.tokens := ⟨d, rfl, List.infix_rfl, rfl⟩

/-! ## Statements inside statements -/

mutual

/-- With a statement, the statements in it stand in its tokens. -/
theorem Statement.standsIn_parts (d : Statement) : ∀ st ∈ d.tree.parts, st.StandsIn d.tokens := by
  have hself := d.standsIn
  cases d with
  | action a ending =>
    rw [Statement.tree] at hself ⊢
    exact List.forall_mem_singleton.2 hself
  | loop head opening body closing =>
    rw [Statement.tree] at hself ⊢
    refine List.forall_mem_cons.2 ⟨hself, fun st hst => (standsIn_bodyParts body st hst).mono ?_⟩
    exact ⟨head.tokens ++ [opening.token], [closing.token], by simp [Statement.tokens]⟩
  | branch head opening body closing =>
    rw [Statement.tree] at hself ⊢
    refine List.forall_mem_cons.2 ⟨hself, fun st hst => ?_⟩
    have hst : st ∈ bodyParts (bodyTrees body) := by simpa [bodyParts] using hst
    refine (standsIn_bodyParts body st hst).mono ?_
    exact ⟨head.tokens ++ [opening.token], [closing.token], by simp [Statement.tokens]⟩
  | branchElse head opening body closing otherwise elseOpening elseBody elseClosing =>
    rw [Statement.tree] at hself ⊢
    refine List.forall_mem_cons.2 ⟨hself, fun st hst => ?_⟩
    rcases List.mem_append.1 hst with hst | hst
    · refine (standsIn_bodyParts body st hst).mono ?_
      exact ⟨head.tokens ++ [opening.token], closing.token :: otherwise.token :: elseOpening.token ::
        bodyTokens elseBody ++ [elseClosing.token], by simp [Statement.tokens]⟩
    · refine (standsIn_bodyParts elseBody st hst).mono ?_
      exact ⟨head.tokens ++ opening.token :: bodyTokens body ++ [closing.token, otherwise.token, elseOpening.token],
        [elseClosing.token], by simp [Statement.tokens]⟩

/-- Every statement in a block, at any depth, stands in the tokens of the block. -/
theorem standsIn_bodyParts (ds : List Statement) : ∀ st ∈ bodyParts (bodyTrees ds), st.StandsIn (bodyTokens ds) := by
  cases ds with
  | nil => exact fun _ => nofun
  | cons d rest =>
    intro st hst
    rcases List.mem_append.1 hst with hst | hst
    · exact (d.standsIn_parts st hst).mono (List.prefix_append _ _).isInfix
    · exact (standsIn_bodyParts rest st hst).mono (List.suffix_append _ _).isInfix

end

end Grammar

/-- The conditions of a statement stand where it does. -/
theorem Statement.StandsIn.conditions {tokens : List Token} {st : Statement} (h : st.StandsIn tokens) :
    ∀ c ∈ st.conditions, c.StandsIn tokens := by
  obtain ⟨d, rfl, htokens, -⟩ := h
  intro c hc
  refine Condition.StandsIn.mono ?_ htokens
  cases d with
  | action a ending =>
    rw [Grammar.Statement.tree] at hc
    cases ending with
    | unguarded semicolon => cases hc
    | guarded keyword condition semicolon =>
      obtain rfl : c = condition.tree := by simpa [Statement.conditions, Grammar.Ending.guard] using hc
      refine condition.standsIn.mono ⟨a.tokens ++ [keyword.token], [semicolon.token], ?_⟩
      simp [Grammar.Statement.tokens, Grammar.Ending.tokens]
  | loop head opening body closing =>
    rw [Grammar.Statement.tree] at hc
    cases head with
    | endless keyword => cases hc
    | conditional keyword parenOpen condition parenClose =>
      obtain rfl : c = condition.tree := by simpa [Statement.conditions, Grammar.LoopHead.guard] using hc
      refine condition.standsIn.mono ⟨[keyword.token, parenOpen.token],
        parenClose.token :: opening.token :: Grammar.bodyTokens body ++ [closing.token], ?_⟩
      simp [Grammar.Statement.tokens, Grammar.LoopHead.tokens]
  | branch head opening body closing =>
    rw [Grammar.Statement.tree] at hc
    obtain rfl : c = head.condition.tree := by simpa [Statement.conditions] using hc
    refine head.condition.standsIn.mono ⟨[head.keyword.token, head.opening.token],
      head.closing.token :: opening.token :: Grammar.bodyTokens body ++ [closing.token], ?_⟩
    simp [Grammar.Statement.tokens, Grammar.BranchHead.tokens]
  | branchElse head opening body closing otherwise elseOpening elseBody elseClosing =>
    rw [Grammar.Statement.tree] at hc
    obtain rfl : c = head.condition.tree := by simpa [Statement.conditions] using hc
    refine head.condition.standsIn.mono ⟨[head.keyword.token, head.opening.token],
      head.closing.token :: opening.token :: Grammar.bodyTokens body ++ closing.token :: otherwise.token ::
        elseOpening.token :: Grammar.bodyTokens elseBody ++ [elseClosing.token], ?_⟩
    simp [Grammar.Statement.tokens, Grammar.BranchHead.tokens]

/-! ## Programs -/

/-- Every statement of a parsed program stands in its tokens. -/
theorem standsIn_of_parseTokens {tokens : List Token} {table : ProcedureTable} (h : parseTokens tokens = .ok table)
    {p : Procedure} (hp : p ∈ table.procedures) : ∀ st ∈ bodyParts p.body, st.StandsIn tokens := by
  obtain ⟨program, htokens, htrees⟩ := parseTokens_eq_ok_iff.1 h
  obtain ⟨d, hd, rfl⟩ := List.mem_map.1 (htrees ▸ hp : p ∈ program.trees)
  intro st hst
  have hbody : Grammar.bodyTokens d.body <:+: d.tokens :=
    ⟨[d.keyword.token, d.identifier.token, d.opening.token], [d.closing.token], rfl⟩
  have hprocedure : d.tokens <:+: program.tokens := by
    obtain ⟨before, behind, hprogram⟩ := List.append_of_mem hd
    exact ⟨Grammar.Program.tokens before, Grammar.Program.tokens behind, by simp [Grammar.Program.tokens, hprogram]⟩
  have hprogram : program.tokens <+: tokens := htokens ▸ List.takeWhile_prefix _
  exact (Grammar.standsIn_bodyParts d.body st hst).mono (hbody.trans (hprocedure.trans hprogram.isInfix))

/-- An error of the parser stands where a token of the source begins. -/
theorem exists_start_of_parseTokens {source : List UInt8} {e : ParseError}
    (h : parseTokens (Lexer.ofBytes source).tokens = .error e) :
    ∃ t ∈ (Lexer.ofBytes source).tokens, t.span.start = e.position := by
  obtain ⟨front, htokens, hinside⟩ := (Lexer.spread .origin source).ended_at
  rw [← Lexer.ofBytes] at htokens
  rw [htokens] at h ⊢
  generalize Position.origin.advance source = stop at h
  have herror : ∀ {x}, Stream.procedures (Stream.append (Stream.ofTokens front) [⟨.endOfInput, Span.point stop, ""⟩]) .empty =
      .error x → x = e := fun hx => Except.error.inj (hx.symm.trans h)
  rcases Stream.settled_procedures (Stream.ofTokens front) hinside .empty with ⟨table, hends, -⟩ | hfails
  · have hok : parseTokens (front ++ [⟨.endOfInput, Span.point stop, ""⟩]) = .ok table :=
      hends _ fun t ht => Option.some.inj ht ▸ rfl
    rw [hok] at h
    cases h
  · cases hfails with
    | refused e' hplace hx =>
      obtain rfl := herror (hx _)
      obtain ⟨t, ht, hstart⟩ := hplace
      exact ⟨t, List.mem_append_left _ ht, hstart⟩
    | stopped fault hx =>
      obtain rfl := herror (hx _ (.ended (Span.point stop) "" []))
      exact ⟨_, List.mem_append_right _ (List.mem_singleton_self _), (Stream.position_error ⟨_ :: _, _⟩ fault).symm⟩
    | masked minus hminus hlast hx =>
      have hend : ∀ n, (Stream.ofTokens [⟨.endOfInput, Span.point stop, ""⟩]).kind ≠ .integer n := fun n hn => by cases hn
      obtain rfl := herror (hx _ hend)
      exact ⟨minus, List.mem_append_left _ (hlast.mem (List.mem_singleton_self _)), rfl⟩

end RegisterCompiler
