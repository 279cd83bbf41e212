import Mathlib
import RegisterCompiler.Proofs.Parsing.Accepted

/-!
# What some tokens decide

The parser reads by one token of lookahead, so the tokens in front of it decide about most of what it does, whatever comes
behind them. A part of the parser is settled on some tokens (`Settled`) if it reads some of them and leaves the others and all
that follows alone, or if it fails in one of three ways (`Fails`): at one of these tokens, whatever follows; at what follows, if
nothing goes on there; or at a minus that is the last of these tokens, if no number follows. Every part of the parser is
settled on any tokens (`settled_procedure`), but for a branch without an else-body behind its brace, so the whole parser is
(`settled_procedures`).
-/

namespace RegisterCompiler

namespace Stream

variable {s r : Stream} {α β : Type}

/-! ## Tokens and what follows them -/

/-- The stream with more tokens behind its own. -/
def append (s : Stream) (more : List Token) : Stream := ⟨s.tokens ++ more, s.last⟩

/-- The stream of other tokens, behind all of its own. -/
def past (s : Stream) (more : List Token) : Stream := ⟨more, s.tokens.foldl (fun _ t => t.span.stop) s.last⟩

/-- Tokens at which nothing goes on: none, the end of the input, or a malformed token. -/
inductive Stops : List Token → Prop
  | nothing : Stops []
  | ended (span : Span) (lexeme : String) (more : List Token) : Stops (⟨.endOfInput, span, lexeme⟩ :: more)
  | malformed (fault : LexFault) (span : Span) (lexeme : String) (more : List Token) :
      Stops (⟨.malformed fault, span, lexeme⟩ :: more)

/-- Passing some tokens of a stream leads to another. -/
structure Leads (s r : Stream) : Prop where
  suffix : r.tokens <:+ s.tokens
  past : r.past = s.past

theorem Leads.refl (s : Stream) : s.Leads s := ⟨List.suffix_refl _, rfl⟩

theorem Leads.trans {q : Stream} (h : s.Leads r) (h' : r.Leads q) : s.Leads q :=
  ⟨h'.suffix.trans h.suffix, h'.past.trans h.past⟩

/-- Passing one token leads to the stream behind it. -/
theorem leads_cons (t : Token) (rest : List Token) (last : Position) : Leads ⟨t :: rest, last⟩ ⟨rest, t.span.stop⟩ :=
  ⟨List.suffix_cons t rest, rfl⟩

/-- A fault is reported where the stream stands, also when a malformed token stands there. -/
theorem position_error (s : Stream) (fault : ParseFault) : (s.error fault).position = s.position := by
  unfold error
  split <;> rfl

/-! ## Readings that some tokens settle -/

/-- A reading succeeds with a result and leaves a stream. -/
def Reads.Ends (x : Reads s α) (a : α) (r : Stream) : Prop := ∃ h, x = .ok (a, ⟨r, h⟩)

/-- How what is done with some tokens, and others behind them, fails. -/
inductive Fails (s : Stream) {γ : List Token → Type} (x : (more : List Token) → Except ParseError (γ more)) : Prop
  /-- One of the tokens does not fit: nothing behind them changes that. -/
  | refused (e : ParseError) : (∃ t ∈ s.tokens, t.span.start = e.position) → (∀ more, x more = .error e) → Fails s x
  /-- There has to be another token: an end or a malformed token there is the fault. -/
  | stopped (fault : ParseFault) : (∀ more, Stops more → x more = .error ((s.past more).error fault)) → Fails s x
  /-- The last token is a minus: whatever follows, but a number, the minus is the fault. -/
  | masked (minus : Token) : minus.kind = .symbol (.operation .sub) → [minus] <:+ s.tokens →
      (∀ more, (∀ n, (s.past more).kind ≠ .integer n) → x more = .error ⟨.numberAfterMinus, minus.span.start⟩) → Fails s x

/-- What is read off some tokens, and others behind them, is settled by the former. -/
inductive Settled (s : Stream) (x : (more : List Token) → Reads (s.append more) α) : Prop
  | reads (a : α) (r : Stream) : s.Leads r → (∀ more, (x more).Ends a (r.append more)) → Settled s x
  | fails : s.Fails x → Settled s x

/-- What fails behind some tokens, fails with them. -/
theorem Fails.behind {γ δ : List Token → Type} {x : (more : List Token) → Except ParseError (γ more)}
    {y : (more : List Token) → Except ParseError (δ more)} (h : r.Fails y) (hr : s.Leads r)
    (hxy : ∀ more e, y more = .error e → x more = .error e) : s.Fails x := by
  cases h with
  | refused e hplace h =>
    obtain ⟨t, ht, hstart⟩ := hplace
    exact .refused e ⟨t, hr.suffix.mem ht, hstart⟩ fun more => hxy _ _ (h more)
  | stopped fault h => exact .stopped fault fun more hmore => hr.past ▸ hxy _ _ (h more hmore)
  | masked minus hkind hlast h =>
    exact .masked minus hkind (hlast.trans hr.suffix) fun more hmore => hxy _ _ (h more (hr.past ▸ hmore))

/-- What a reading leaves is fewer tokens. -/
theorem Reads.Ends.size_lt {x : Reads s α} {a : α} (h : x.Ends a r) : r.size < s.size := h.1

/-! ## Readings composed -/

namespace Settled

variable {x : (more : List Token) → Reads (s.append more) α}

/-- A reading is settled if one is that does the same. -/
theorem congr {y : (more : List Token) → Reads (s.append more) α} (hxy : ∀ more, x more = y more) (hy : s.Settled y) :
    s.Settled x := by
  rwa [funext hxy]

/-- The tokens left are fewer, already if no others follow. -/
theorem size_lt_of_ends {a : α} (h : ∀ more, (x more).Ends a (r.append more)) : r.size < s.size := by
  have hless := (h []).size_lt
  simpa [append, size] using hless

/-- What is made of a settled reading is settled. -/
theorem map (h : s.Settled x) (f : α → β) : s.Settled fun more => (x more).map f := by
  cases h with
  | reads a r hr h =>
    refine .reads (f a) r hr fun more => ?_
    obtain ⟨hless, hx⟩ := h more
    exact ⟨hless, by rw [hx]; rfl⟩
  | fails h => exact .fails (h.behind (.refl s) fun more e he => by rw [he]; rfl)

/-- What is read behind some of the tokens. -/
theorem behind {y : (more : List Token) → Reads (r.append more) α} (h : r.Settled y) (hr : s.Leads r)
    (hless : ∀ more, (r.append more).size < (s.append more).size) :
    s.Settled fun more => After.reads ⟨r.append more, hless more⟩ (y more) := by
  cases h with
  | reads a q hq h =>
    refine .reads a q (hr.trans hq) fun more => ?_
    obtain ⟨hless', hy⟩ := h more
    exact ⟨hless'.trans (hless more), by rw [hy]; rfl⟩
  | fails h => exact .fails (h.behind hr fun more e he => by rw [he]; rfl)

/-- One reading and another one behind it. -/
theorem andThen {f : α → (r : Stream) → Reads r β} (h : s.Settled x)
    (hf : ∀ a r, s.Leads r → r.size < s.size → r.Settled fun more => f a (r.append more)) :
    s.Settled fun more => (x more).andThen f := by
  cases h with
  | reads a r hr h =>
    have hbehind := (hf a r hr (size_lt_of_ends h)).behind hr fun more => (h more).size_lt
    refine hbehind.congr fun more => ?_
    obtain ⟨hless, hx⟩ := h more
    simp only [hx]
    rfl
  | fails h => exact .fails (h.behind (.refl s) fun more e he => by rw [he]; rfl)

end Settled

section

variable {t : Token} {rest : List Token} {last : Position}

/-- Reading a token that is there is settled. -/
theorem settled_token (h : t.kind ≠ .endOfInput) (a : α) :
    Settled ⟨t :: rest, last⟩ fun more => token (append ⟨t :: rest, last⟩ more) h a :=
  .reads a ⟨rest, t.span.stop⟩ (leads_cons t rest last) fun _ => ⟨_, rfl⟩

/-- What is read behind a token that is there is settled if it is on the tokens behind. -/
theorem settled_skip {f : (r : Stream) → Reads r α} (h : t.kind ≠ .endOfInput)
    (hf : Settled ⟨rest, t.span.stop⟩ fun more => f (append ⟨rest, t.span.stop⟩ more)) :
    Settled ⟨t :: rest, last⟩ fun more => skip (append ⟨t :: rest, last⟩ more) h f :=
  hf.behind (leads_cons t rest last) fun more => size_advance_lt (s := append ⟨t :: rest, last⟩ more) h

/-- A token that does not fit. -/
theorem settled_error (fault : ParseFault) :
    Settled (α := α) ⟨t :: rest, last⟩ fun more => .error ((append ⟨t :: rest, last⟩ more).error fault) :=
  .fails (.refused (error ⟨t :: rest, last⟩ fault)
    ⟨t, List.mem_cons_self, (position_error ⟨t :: rest, last⟩ fault).symm⟩ fun _ => rfl)

end

/-! ## Operands and conditions -/

/-- Whether the expected symbol stands there is settled. -/
theorem settled_expect (s : Stream) (symbol : Symbol) (fault : ParseFault) :
    s.Settled fun more => (s.append more).expect symbol fault := by
  obtain ⟨_ | ⟨t, rest⟩, last⟩ := s
  · exact .fails (.stopped fault fun more h => by cases h <;> rfl)
  · by_cases h : t.kind = .symbol symbol
    · exact .congr (fun more => dif_pos h) (settled_token (by simp [h]) ())
    · exact .congr (fun more => dif_neg h) (settled_error fault)

/-- An operand is settled; a minus at the very end is what the third way to fail is for. -/
theorem settled_operand (s : Stream) : s.Settled fun more => (s.append more).operand := by
  obtain ⟨_ | ⟨⟨kind, span, lexeme⟩, rest⟩, last⟩ := s
  · exact .fails (.stopped .operand fun more h => by cases h <;> rfl)
  · cases kind with
    | register r => exact settled_token (by nofun) (Operand.mk (.register r) span.start)
    | integer n => exact settled_token (by nofun) (Operand.mk (.immediate (Int64.ofNat n.val)) span.start)
    | vectorRegister => exact settled_error .vectorRegister
    | float => exact settled_error .floatImmediate
    | symbol symbol =>
      cases symbol with
      | operation op =>
        cases op with
        | sub =>
          -- behind the minus another token decides, and if there is none, any that is no number
          obtain _ | ⟨⟨kind, span', lexeme'⟩, rest⟩ := rest
          · refine .fails (.masked _ rfl (List.suffix_refl _) fun more hmore => ?_)
            obtain _ | ⟨⟨kind, span', lexeme'⟩, more⟩ := more
            · rfl
            · cases kind with
              | integer n => exact absurd rfl (hmore n)
              | _ => rfl
          · cases kind with
            | integer n =>
              exact .reads ⟨.immediate (-Int64.ofNat n.val), span.start⟩ ⟨rest, span'.stop⟩
                ((leads_cons _ _ _).trans (leads_cons _ _ _)) fun _ => ⟨_, rfl⟩
            | _ => exact .fails (.refused ⟨.numberAfterMinus, span.start⟩ ⟨_, List.mem_cons_self, rfl⟩ fun _ => rfl)
        | _ => exact settled_error .operand
      | _ => exact settled_error .operand
    | _ => exact settled_error .operand

theorem settled_comparison (s : Stream) : s.Settled fun more => (s.append more).comparison := by
  obtain ⟨_ | ⟨⟨kind, span, lexeme⟩, rest⟩, last⟩ := s
  · exact .fails (.stopped .comparison fun more h => by cases h <;> rfl)
  · cases kind with
    | symbol symbol =>
      cases symbol with
      | comparison c => exact settled_token (by nofun) c
      | _ => exact settled_error .comparison
    | _ => exact settled_error .comparison

theorem settled_condition (s : Stream) : s.Settled fun more => (s.append more).condition := by
  obtain ⟨_ | ⟨t, rest⟩, last⟩ := s
  · exact .fails (.stopped .operand fun more h => by cases h <;> rfl)
  · refine (settled_operand ⟨t :: rest, last⟩).andThen (f := fun lhs s₁ => s₁.comparison.andThen fun c s₂ =>
      s₂.operand.map fun rhs => Condition.mk lhs c rhs t.span.start) fun lhs s₁ _ _ => ?_
    refine (settled_comparison s₁).andThen fun c s₂ _ _ => ?_
    exact (settled_operand s₂).map _

/-- A guard and the semicolon behind it are settled. -/
theorem settled_guardAndEnd (s : Stream) (behindGuard unguarded : ParseFault) :
    s.Settled fun more => (s.append more).guardAndEnd behindGuard unguarded := by
  obtain ⟨_ | ⟨t, rest⟩, last⟩ := s
  · exact .fails (.stopped unguarded fun more h => by cases h <;> rfl)
  · by_cases h : t.kind = .keyword .guard
    · refine .congr (fun more => dif_pos h) (settled_skip (by simp [h]) ?_)
      refine (settled_condition _).andThen fun guard s₂ _ _ => ?_
      exact (settled_expect s₂ .semicolon behindGuard).map fun _ => some guard
    · exact .congr (fun more => dif_neg h) ((settled_expect ⟨t :: rest, last⟩ .semicolon unguarded).map fun _ => none)

/-! ## Actions -/

/-- The end of an action is settled. -/
theorem settled_finish (s : Stream) (start : Position) (action : Action) :
    s.Settled fun more => (s.append more).finish start action :=
  (s.settled_guardAndEnd .semicolon .semicolon).map fun guard => Statement.action action guard start

theorem settled_update (s : Stream) (start : Position) (dest : Register) (op : Operation) :
    s.Settled fun more => (s.append more).update start dest op :=
  s.settled_operand.andThen fun source s₁ _ _ =>
    (s₁.settled_guardAndEnd .semicolonAfterCondition .semicolonOrCondition).map fun guard =>
      Statement.action (.update dest op source) guard start

theorem settled_assign (s : Stream) (start : Position) (dest : Register) :
    s.Settled fun more => (s.append more).assign start dest := by
  refine s.settled_operand.andThen fun lhs s₁ _ _ => ?_
  obtain ⟨_ | ⟨⟨kind, span, lexeme⟩, rest⟩, last⟩ := s₁
  · exact .fails (.stopped .semicolonOrOperator fun more h => by cases h <;> rfl)
  · cases kind with
    | symbol symbol =>
      cases symbol with
      | operation op =>
        refine settled_skip (by nofun) ?_
        exact (settled_operand _).andThen fun rhs s₃ _ _ => s₃.settled_finish start (.compute dest op lhs rhs)
      | semicolon => exact settled_finish _ start (.assign dest lhs)
      | _ => exact settled_error .semicolonOrOperator
    | keyword k =>
      cases k with
      | guard => exact settled_finish _ start (.assign dest lhs)
      | _ => exact settled_error .semicolonOrOperator
    | _ => exact settled_error .semicolonOrOperator

theorem settled_toRegister (s : Stream) (start : Position) (dest : Register) :
    s.Settled fun more => (s.append more).toRegister start dest := by
  unfold toRegister
  obtain ⟨_ | ⟨⟨kind, span, lexeme⟩, rest⟩, last⟩ := s
  · exact .fails (.stopped .assignment fun more h => by cases h <;> rfl)
  · cases kind with
    | symbol symbol =>
      cases symbol with
      | assign =>
        refine settled_skip (by nofun) ?_
        exact settled_assign _ start dest
      | update op =>
        refine settled_skip (by nofun) ?_
        exact settled_update _ start dest op
      | _ => exact settled_error .assignment
    | _ => exact settled_error .assignment

theorem settled_output (s : Stream) (start : Position) : s.Settled fun more => (s.append more).output start := by
  have hoperand : s.Settled fun more => (s.append more).operand.andThen fun source r => r.finish start (.print source) :=
    s.settled_operand.andThen fun source r _ _ => r.settled_finish start (.print source)
  unfold output
  obtain ⟨_ | ⟨⟨kind, span, lexeme⟩, rest⟩, last⟩ := s
  · exact .fails (.stopped .operand fun more h => by cases h <;> rfl)
  · cases kind with
    | text text =>
      refine settled_skip (by nofun) ?_
      exact settled_finish _ start (.printText text)
    | _ => exact hoperand

theorem settled_stack (s : Stream) (start : Position) (action : Register → Action) :
    s.Settled fun more => (s.append more).stack start action := by
  unfold stack
  obtain ⟨_ | ⟨⟨kind, span, lexeme⟩, rest⟩, last⟩ := s
  · exact .fails (.stopped .register fun more h => by cases h <;> rfl)
  · cases kind with
    | register reg =>
      refine settled_skip (by nofun) ?_
      exact settled_finish _ start (action reg)
    | _ => exact settled_error .register

/-! ## Loops and branches -/

theorem settled_loopHead (s : Stream) : s.Settled fun more => (s.append more).loopHead := by
  obtain ⟨_ | ⟨t, rest⟩, last⟩ := s
  · exact .fails (.stopped .loopBody fun more h => by cases h <;> rfl)
  · by_cases h : t.kind = .symbol .parenOpen
    · refine .congr (fun more => dif_pos h) (settled_skip (by simp [h]) ?_)
      refine (settled_condition _).andThen fun condition s₂ _ _ => ?_
      refine (settled_expect s₂ .parenClose .loopConditionEnd).andThen fun _ s₃ _ _ => ?_
      exact (settled_expect s₃ .braceOpen .loopBody).map fun _ => some condition
    · exact .congr (fun more => dif_neg h) ((settled_expect ⟨t :: rest, last⟩ .braceOpen .loopBody).map fun _ => none)

theorem settled_branchHead (s : Stream) : s.Settled fun more => (s.append more).branchHead :=
  (s.settled_expect .parenOpen .branchCondition).andThen fun _ s₁ _ _ =>
    s₁.settled_condition.andThen fun condition s₂ _ _ =>
      (s₂.settled_expect .parenClose .branchConditionEnd).andThen fun _ s₃ _ _ =>
        (s₃.settled_expect .braceOpen .branchBody).map fun _ => condition

/-- A statement that ends behind its first words. -/
theorem settled_whole {t : Token} {rest : List Token} {last : Position} {f : (r : Stream) → Reads r Statement}
    (h : t.kind ≠ .endOfInput) (hf : Settled ⟨rest, t.span.stop⟩ fun more => f (append ⟨rest, t.span.stop⟩ more)) :
    Settled ⟨t :: rest, last⟩ fun more => skip (append ⟨t :: rest, last⟩ more) h fun r => (f r).map Head.whole :=
  settled_skip (f := fun r => (f r).map Head.whole) h (hf.map Head.whole)

theorem settled_head (s : Stream) : s.Settled fun more => (s.append more).head := by
  obtain ⟨_ | ⟨⟨kind, span, lexeme⟩, rest⟩, last⟩ := s
  · exact .fails (.stopped .statement fun more h => by cases h <;> rfl)
  · cases kind with
    | register dest =>
      exact settled_whole (f := fun r => r.toRegister span.start dest) (by nofun) (settled_toRegister _ span.start dest)
    | identifier procedure =>
      exact settled_whole (f := fun r => r.finish span.start (.call procedure)) (by nofun) (settled_finish _ _ _)
    | symbol symbol =>
      cases symbol with
      | output => exact settled_whole (f := fun r => r.output span.start) (by nofun) (settled_output _ span.start)
      | _ => exact settled_error .statement
    | keyword k =>
      cases k with
      | breakLoop => exact settled_whole (f := fun r => r.finish span.start .breakLoop) (by nofun) (settled_finish _ _ _)
      | continueLoop => exact settled_whole (f := fun r => r.finish span.start .continueLoop) (by nofun) (settled_finish _ _ _)
      | returnCall => exact settled_whole (f := fun r => r.finish span.start .returnCall) (by nofun) (settled_finish _ _ _)
      | push => exact settled_whole (f := fun r => r.stack span.start .push) (by nofun) (settled_stack _ _ _)
      | pop => exact settled_whole (f := fun r => r.stack span.start .pop) (by nofun) (settled_stack _ _ _)
      | loop => exact settled_skip (f := fun r => r.loopHead.map Head.loop) (by nofun) ((settled_loopHead _).map Head.loop)
      | branch =>
        exact settled_skip (f := fun r => r.branchHead.map Head.branch) (by nofun) ((settled_branchHead _).map Head.branch)
      | _ => exact settled_error .statement
    | _ => exact settled_error .statement

/-- The head of an else-body is settled. -/
theorem settled_elseHead (s : Stream) (h : ∀ more, (s.append more).kind = .keyword .otherwise) :
    s.Settled fun more => (s.append more).elseHead (h more) := by
  obtain ⟨_ | ⟨t, rest⟩, last⟩ := s
  · exact absurd (h []) nofun
  · have hkind : t.kind ≠ .endOfInput := by simp [show t.kind = .keyword .otherwise from h []]
    exact settled_skip (f := fun r => r.expect .braceOpen .elseBody) hkind (settled_expect _ .braceOpen .elseBody)

/-! ## Statements and blocks -/

/-- The tokens are all read, if nothing goes on behind them. -/
def Paused (s : Stream) (x : (more : List Token) → Reads (s.append more) α) : Prop :=
  ∃ a, ∀ more, Stops more → (x more).Ends a (s.past more)

/-- Where a stream with tokens stands does not depend on what follows them. -/
theorem position_append (h : r.size < s.size) (more : List Token) : (s.append more).position = s.position := by
  obtain ⟨_ | ⟨t, rest⟩, last⟩ := s
  · exact absurd h (Nat.not_lt_zero _)
  · rfl

/-- A body that is not closed yet is a statement and a body behind it. -/
theorem body_eq_andThen (h : s.kind ≠ .symbol .braceClose) :
    s.body = s.statement.andThen fun st r => r.body.map fun sts => st :: sts := by
  rw [body, dif_neg h]
  rcases s.statement with e | ⟨st, r⟩ <;> rfl

/-- A body fails with its first statement. -/
theorem body_eq_error {e : ParseError} (h : s.kind ≠ .symbol .braceClose) (hhead : s.head = .error e) :
    s.body = .error e := by
  rw [body, dif_neg h, statement, hhead]

/-- Where nothing goes on, a body fails for want of a statement. -/
theorem body_of_stops {more : List Token} (h : Stops more) (last : Position) :
    body ⟨more, last⟩ = .error (error ⟨more, last⟩ .statement) :=
  body_eq_error (by cases h <;> nofun) (by cases h <;> rfl)

mutual

/-- A statement is settled, unless it is a branch and the tokens end behind its block, where a word may begin another block. -/
theorem settled_statement (s : Stream) :
    (s.Settled fun more => (s.append more).statement) ∨ s.Paused fun more => (s.append more).statement := by
  cases s.settled_head with
  | fails h => exact .inl (.fails (h.behind (.refl s) fun more e he => by rw [statement, he]))
  | reads hd r hr h =>
    have hless := Settled.size_lt_of_ends h
    have hsize : ∀ more, (r.append more).size < (s.append more).size := fun more => (h more).size_lt
    cases hd with
    | whole st =>
      refine .inl (.reads st r hr fun more => ?_)
      obtain ⟨hl, hx⟩ := h more
      exact ⟨hl, by rw [statement, hx]⟩
    | loop condition =>
      have hbody := (settled_body r).map fun body => Statement.loop condition body none s.position
      refine .inl ((hbody.behind hr hsize).congr fun more => ?_)
      obtain ⟨hl, hx⟩ := h more
      rw [statement, hx, position_append hless]
    | branch condition =>
      cases settled_body r with
      | fails hb =>
        refine .inl (.fails (hb.behind hr fun more e he => ?_))
        obtain ⟨hl, hx⟩ := h more
        rw [statement, hx]
        simp only [he]
        rfl
      | reads thenBody r₁ hr₁ hb =>
        have hless₁ := Settled.size_lt_of_ends hb
        have hsize₁ : ∀ more, (r₁.append more).size < (r.append more).size := fun more => (hb more).size_lt
        obtain ⟨_ | ⟨t, rest⟩, last⟩ := r₁
        · refine .inr ⟨.branch condition thenBody [] none s.position, fun more hmore => ?_⟩
          have hpast : append ⟨[], last⟩ more = s.past more := congrFun (hr.trans hr₁).past more
          have hkind : ¬ (append ⟨[], last⟩ more).kind = .keyword .otherwise := by cases hmore <;> nofun
          rw [← hpast]
          refine ⟨(hsize₁ more).trans (hsize more), ?_⟩
          beta_reduce
          obtain ⟨hl, hx⟩ := h more
          obtain ⟨hl₁, hb⟩ := hb more
          rw [statement, hx]
          simp only [hb, dif_neg hkind, position_append hless]
          rfl
        · by_cases hkind : t.kind = .keyword .otherwise
          · have helse := (settled_elseHead ⟨t :: rest, last⟩ fun _ => hkind).andThen
              (f := fun _ r₂ => r₂.body.map fun elseBody => Statement.branch condition thenBody elseBody none s.position)
              fun _ r₂ _ _ => (settled_body r₂).map _
            refine .inl (((helse.behind hr₁ hsize₁).behind hr hsize).congr fun more => ?_)
            obtain ⟨hl, hx⟩ := h more
            obtain ⟨hl₁, hb⟩ := hb more
            rw [statement, hx]
            simp only [hb, dif_pos (show (append ⟨t :: rest, last⟩ more).kind = _ from hkind), position_append hless]
            rcases (append ⟨t :: rest, last⟩ more).elseHead hkind with e | ⟨_, r₂⟩ <;> rfl
          · refine .inl (.reads (.branch condition thenBody [] none s.position) ⟨t :: rest, last⟩ (hr.trans hr₁) fun more => ?_)
            refine ⟨(hsize₁ more).trans (hsize more), ?_⟩
            obtain ⟨hl, hx⟩ := h more
            obtain ⟨hl₁, hb⟩ := hb more
            rw [statement, hx]
            simp only [hb, dif_neg (show ¬ (append ⟨t :: rest, last⟩ more).kind = _ from hkind), position_append hless]
            rfl
termination_by (s.size, 0)
decreasing_by all_goals exact Prod.Lex.left _ _ (by omega)

/-- A block is settled: behind one that the tokens end with, the block around it has to be closed. -/
theorem settled_body (s : Stream) : s.Settled fun more => (s.append more).body := by
  obtain ⟨_ | ⟨t, rest⟩, last⟩ := s
  · exact .fails (.stopped .statement fun more h => body_of_stops h last)
  by_cases hkind : t.kind = .symbol .braceClose
  · refine (settled_token (by simp [hkind]) []).congr fun more => ?_
    rw [body, dif_pos (show (append ⟨t :: rest, last⟩ more).kind = _ from hkind)]
  have hbody : ∀ more, (append ⟨t :: rest, last⟩ more).body = _ := fun more => body_eq_andThen hkind
  rcases settled_statement ⟨t :: rest, last⟩ with h | ⟨st, h⟩
  · exact (h.andThen fun st r _ _ => (settled_body r).map fun sts => st :: sts).congr hbody
  · refine .fails (.stopped .statement fun more hmore => ?_)
    obtain ⟨hless, hst⟩ : (append ⟨t :: rest, last⟩ more).statement.Ends st _ := h more hmore
    have hpast : (past ⟨t :: rest, last⟩ more).body = .error _ := body_of_stops hmore _
    simp only [hbody, hst, Reads.andThen, hpast]
    rfl
termination_by (s.size, 1)

end

/-! ## Procedures and programs -/

/-- The name of a procedure and its body are settled. -/
theorem settled_named (s : Stream) : s.Settled fun more => (s.append more).named := by
  obtain ⟨_ | ⟨⟨kind, span, lexeme⟩, rest⟩, last⟩ := s
  · exact .fails (.stopped .procedureName fun more h => by cases h <;> rfl)
  · cases kind with
    | identifier name =>
      have hnamed := (settled_expect ⟨rest, span.stop⟩ .braceOpen .procedureBody).andThen
        (f := fun _ s₂ => s₂.body.map fun body => Procedure.mk name body span.start) fun _ s₂ _ _ => (settled_body s₂).map _
      exact settled_skip (f := fun s₁ => (s₁.expect .braceOpen .procedureBody).andThen fun _ s₂ =>
        s₂.body.map fun body => Procedure.mk name body span.start) (by nofun) hnamed
    | _ => exact settled_error .procedureName

/-- A procedure is settled. -/
theorem settled_procedure (s : Stream) : s.Settled fun more => (s.append more).procedure := by
  obtain ⟨_ | ⟨t, rest⟩, last⟩ := s
  · exact .fails (.stopped .topLevel fun more h => by cases h <;> rfl)
  · by_cases h : t.kind = .keyword .procedure
    · exact .congr (fun more => dif_pos h) (settled_skip (f := named) (by simp [h]) (settled_named _))
    · exact .congr (fun more => dif_neg h) (settled_error .topLevel)

/-- A procedure is placed at one of its tokens, its name. -/
theorem exists_start_of_procedure {p : Procedure} {rest : List Token} (h : s.procedure.Gives p rest) :
    ∃ t ∈ s.tokens, t.span.start = p.position := by
  obtain ⟨d, htokens, rfl⟩ := gives_procedure.1 h
  exact ⟨d.identifier.token, by simp [htokens, Grammar.Procedure.tokens], rfl⟩

/-- Tokens are a whole program, if nothing follows them, and a malformed token behind them is the fault. -/
def Completes (x : List Token → Except ParseError α) : Prop :=
  ∃ a, (∀ more, AtEnd more → x more = .ok a) ∧
    ∀ fault span lexeme more, x (⟨.malformed fault, span, lexeme⟩ :: more) = .error ⟨.lexical fault, span.start⟩

/-- Tokens among which the input does not end are a whole program or settle how the parser fails. -/
theorem settled_procedures : ∀ (s : Stream) (_ : Grammar.Inside s.tokens) (table : ProcedureTable),
    (Completes fun more => (s.append more).procedures table) ∨ s.Fails fun more => (s.append more).procedures table
  | ⟨[], last⟩, _, table => by
    refine .inl ⟨table, fun more hmore => ?_, fun fault span lexeme more => ?_⟩
    · exact (procedures.eq_def _ table).trans (if_pos (kind_eq_endOfInput_iff.2 hmore))
    · exact (procedures.eq_def _ table).trans (if_neg nofun)
  | ⟨t :: rest, last⟩, hs, table => by
    have hkind : ∀ more, ¬ (append ⟨t :: rest, last⟩ more).kind = .endOfInput := fun _ => hs t List.mem_cons_self
    cases settled_procedure ⟨t :: rest, last⟩ with
    | fails h => exact .inr (h.behind (.refl _) fun more e he => by rw [procedures, if_neg (hkind more), he])
    | reads p r hr h =>
      cases hinsert : table.insert p with
      | error duplicate =>
        have hplace : ∃ u ∈ t :: rest, u.span.start = p.position := by
          obtain ⟨hless, hx⟩ := h []
          simpa [append] using exists_start_of_procedure ⟨_, hx, rfl⟩
        refine .inr (.refused ⟨.redeclared duplicate.name, p.position⟩ hplace fun more => ?_)
        obtain ⟨hless, hx⟩ := h more
        rw [procedures, if_neg (hkind more), hx]
        simp only [hinsert]
      | ok table' =>
        have hstep : ∀ more, (append ⟨t :: rest, last⟩ more).procedures table = (r.append more).procedures table' := by
          intro more
          obtain ⟨hless, hx⟩ := h more
          rw [procedures, if_neg (hkind more), hx]
          simp only [hinsert]
        have hless := Settled.size_lt_of_ends h
        simp only [hstep]
        rcases settled_procedures r (fun u hu => hs u (hr.suffix.mem hu)) table' with hc | hf
        · exact .inl hc
        · exact .inr (hf.behind hr fun _ _ => id)
termination_by s => s.size
decreasing_by exact hless

end Stream

end RegisterCompiler
