import RegisterCompiler.Proofs.Parsing.Grammar

/-!
# Reading a derivation

What it takes for the parser to read one derivation off a stream (`Reads.Gives`): a part of the parser reads exactly the
derivations of its nonterminal, whatever follows them. The parts up to the brace that opens a block are treated here.
-/

namespace RegisterCompiler

open Grammar (Terminal start)

namespace Stream

variable {s : Stream} {α β : Type} {k : TokenKind} {t : Token} {rest middle : List Token}

/-! ## Readings -/

/-- A reading succeeds with a result and leaves some tokens. -/
def Reads.Gives (x : Reads s α) (a : α) (rest : List Token) : Prop := ∃ r : After s, x = .ok (a, r) ∧ r.val.tokens = rest

/-- A stream asks for the kind of its first token. -/
theorem kind_eq (h : s.tokens = t :: rest) : s.kind = t.kind := by
  rw [kind, h]

/-- A stream stands where its first token begins. -/
theorem position_eq {used : List Token} (h : s.tokens = used ++ rest) (hused : used ≠ []) : s.position = start used := by
  cases used with
  | nil => exact absurd rfl hused
  | cons t used =>
    rw [position, h]
    rfl

/-- Advancing drops the first token. -/
theorem tokens_advance (h : s.tokens = t :: rest) : s.advance.tokens = rest := by
  rw [advance, h]

/-- The token in front of which a stream stands. -/
theorem exists_terminal (h : s.kind = k) (hk : k ≠ .endOfInput) : ∃ t : Terminal k, s.tokens = t.token :: s.advance.tokens := by
  obtain ⟨tokens, last⟩ := s
  cases tokens with
  | nil => exact absurd h.symm hk
  | cons t rest =>
    obtain rfl : t.kind = k := h
    exact ⟨⟨t.span, t.lexeme⟩, rfl⟩

/-- A reading that fails gives nothing. -/
theorem not_gives_error {e : ParseError} {a : α} : ¬Reads.Gives (.error e : Reads s α) a rest := by
  rintro ⟨r, h, -⟩
  cases h

/-- A reading that succeeds gives its result and leaves its stream. -/
theorem gives_ok {a b : α} {r : After s} : Reads.Gives (.ok (a, r)) b rest ↔ a = b ∧ r.val.tokens = rest := by
  constructor
  · rintro ⟨q, hq, rfl⟩
    obtain ⟨rfl, rfl⟩ := Prod.mk.inj (Except.ok.inj hq)
    exact ⟨rfl, rfl⟩
  · rintro ⟨rfl, rfl⟩
    exact ⟨r, rfl, rfl⟩

/-- Reading on behind another stream gives the same. -/
theorem gives_reads {r : After s} {x : Reads r.val α} {a : α} : (r.reads x).Gives a rest ↔ x.Gives a rest := by
  unfold After.reads
  constructor
  · rintro ⟨q, hq, rfl⟩
    split at hq
    · cases hq
    · obtain ⟨rfl, rfl⟩ := Prod.mk.inj (Except.ok.inj hq)
      exact ⟨_, rfl, rfl⟩
  · rintro ⟨q, rfl, rfl⟩
    exact ⟨_, rfl, rfl⟩

/-- What is made of a reading is made of what that gives. -/
theorem gives_map {x : Reads s α} {f : α → β} {b : β} : (x.map f).Gives b rest ↔ ∃ a, x.Gives a rest ∧ f a = b := by
  unfold Reads.map
  constructor
  · rintro ⟨r, hr, rfl⟩
    split at hr
    · cases hr
    · obtain ⟨rfl, rfl⟩ := Prod.mk.inj (Except.ok.inj hr)
      exact ⟨_, ⟨_, rfl, rfl⟩, rfl⟩
  · rintro ⟨a, ⟨r, rfl, rfl⟩, rfl⟩
    exact ⟨_, rfl, rfl⟩

/-- Two readings give the result of the second one behind the first. -/
theorem Reads.Gives.andThen {x : Reads s α} {f : α → (r : Stream) → Reads r β} {a : α} {b : β} (hx : x.Gives a middle)
    (hf : ∀ r, r.tokens = middle → (f a r).Gives b rest) : (x.andThen f).Gives b rest := by
  obtain ⟨r, rfl, hmiddle⟩ := hx
  exact gives_reads.2 (hf r.val hmiddle)

/-- One reading behind another. -/
theorem exists_of_andThen {x : Reads s α} {f : α → (r : Stream) → Reads r β} {b : β} (h : (x.andThen f).Gives b rest) :
    ∃ a, ∃ r : Stream, x.Gives a r.tokens ∧ (f a r).Gives b rest := by
  cases x with
  | error e => exact absurd h not_gives_error
  | ok p => exact ⟨p.1, p.2.val, ⟨p.2, rfl, rfl⟩, gives_reads.1 h⟩

/-- An expected symbol is given by a token that is it, and by no other. -/
theorem gives_expect {symbol : Symbol} {fault : ParseFault} :
    (s.expect symbol fault).Gives () rest ↔ ∃ t : Terminal (.symbol symbol), s.tokens = t.token :: rest := by
  unfold expect
  split
  case isTrue h =>
    rw [token, gives_ok]
    obtain ⟨t, ht⟩ := exists_terminal h nofun
    constructor
    · rintro ⟨-, rfl⟩
      exact ⟨t, ht⟩
    · rintro ⟨t', ht'⟩
      exact ⟨rfl, tokens_advance ht'⟩
  case isFalse h =>
    refine iff_of_false not_gives_error ?_
    rintro ⟨t, ht⟩
    exact h (kind_eq ht)

/-! ## Operands and conditions -/

/-- A literal as a word is the number that it writes. -/
theorem ofNat_literal (n : Fin 0x8000000000000000) :
    Int64.ofNat n.val = Int64.ofIntLE n.val (Grammar.literal_bounds n).1.1 (Grammar.literal_bounds n).1.2 := by
  rw [← Int64.toInt_inj, Int64.toInt_ofIntLE]
  exact Int64.toInt_ofNat_of_lt n.isLt

/-- A negated literal as a word is the number that it writes. -/
theorem neg_ofNat_literal (n : Fin 0x8000000000000000) :
    -Int64.ofNat n.val = Int64.ofIntLE (-n.val) (Grammar.literal_bounds n).2.1 (Grammar.literal_bounds n).2.2 := by
  rw [← Int64.toInt_inj, Int64.toInt_ofIntLE, Int64.toInt_neg, Int64.toInt_ofNat_of_lt n.isLt]
  have := n.isLt
  exact Int.bmod_eq_of_le (by omega) (by omega)

/-- An operand is given by exactly the tokens that the grammar derives it from. -/
theorem gives_operand {a : Operand} :
    s.operand.Gives a rest ↔ ∃ o : Grammar.Operand, s.tokens = o.tokens ++ rest ∧ o.tree = a := by
  obtain ⟨tokens, last⟩ := s
  constructor
  · intro h
    rcases tokens with _ | ⟨⟨kind, span, lexeme⟩, tail⟩
    · exact absurd h not_gives_error
    cases kind with
    | register r =>
      obtain ⟨rfl, rfl⟩ := gives_ok.1 h
      exact ⟨.register ⟨span, lexeme⟩, rfl, rfl⟩
    | integer n =>
      obtain ⟨rfl, rfl⟩ := gives_ok.1 h
      exact ⟨.number ⟨span, lexeme⟩, rfl, by rw [ofNat_literal]; rfl⟩
    | symbol symbol =>
      cases symbol with
      | operation op =>
        cases op with
        | sub =>
          replace h := gives_reads.1 h
          rcases tail with _ | ⟨⟨kind, span', lexeme'⟩, tail⟩
          · exact absurd h not_gives_error
          cases kind with
          | integer n =>
            obtain ⟨rfl, rfl⟩ := gives_ok.1 h
            exact ⟨.negative ⟨span, lexeme⟩ ⟨span', lexeme'⟩, rfl, by rw [neg_ofNat_literal]; rfl⟩
          | _ => exact absurd h not_gives_error
        | _ => exact absurd h not_gives_error
      | _ => exact absurd h not_gives_error
    | _ => exact absurd h not_gives_error
  · rintro ⟨o, htokens, rfl⟩
    obtain rfl : tokens = _ := htokens
    cases o with
    | register word => exact ⟨_, rfl, rfl⟩
    | number literal =>
      rw [Grammar.Operand.tree, Grammar.Operand.value, ← ofNat_literal]
      exact ⟨_, rfl, rfl⟩
    | negative minus literal =>
      rw [Grammar.Operand.tree, Grammar.Operand.value, ← neg_ofNat_literal]
      exact ⟨_, rfl, rfl⟩

/-- A comparison is given by its symbol, and by no other token. -/
theorem gives_comparison {c : Comparison} :
    s.comparison.Gives c rest ↔ ∃ t : Terminal (.symbol (.comparison c)), s.tokens = t.token :: rest := by
  obtain ⟨tokens, last⟩ := s
  constructor
  · intro h
    rcases tokens with _ | ⟨⟨kind, span, lexeme⟩, tail⟩
    · exact absurd h not_gives_error
    cases kind with
    | symbol symbol =>
      cases symbol with
      | comparison c =>
        obtain ⟨rfl, rfl⟩ := gives_ok.1 h
        exact ⟨⟨span, lexeme⟩, rfl⟩
      | _ => exact absurd h not_gives_error
    | _ => exact absurd h not_gives_error
  · rintro ⟨t, ht⟩
    obtain rfl : tokens = _ := ht
    exact ⟨_, rfl, rfl⟩

/-- A condition is given by exactly the tokens that the grammar derives it from. -/
theorem gives_condition {c : Condition} :
    s.condition.Gives c rest ↔ ∃ d : Grammar.Condition, s.tokens = d.tokens ++ rest ∧ d.tree = c := by
  constructor
  · intro h
    obtain ⟨_, s₁, h₁, h⟩ := exists_of_andThen h
    obtain ⟨lhs, hlhs, rfl⟩ := gives_operand.1 h₁
    obtain ⟨_, s₂, h₂, h⟩ := exists_of_andThen h
    obtain ⟨operator, hoperator⟩ := gives_comparison.1 h₂
    obtain ⟨_, h₃, rfl⟩ := gives_map.1 h
    obtain ⟨rhs, hrhs, rfl⟩ := gives_operand.1 h₃
    have htokens : s.tokens = (⟨lhs, operator, rhs⟩ : Grammar.Condition).tokens ++ rest := by
      rw [hlhs, hoperator, hrhs, Grammar.Condition.tokens, List.append_assoc]
      rfl
    exact ⟨⟨lhs, operator, rhs⟩, htokens, by rw [position_eq htokens (by simp [Grammar.Condition.tokens])]; rfl⟩
  · rintro ⟨⟨lhs, operator, rhs⟩, htokens, rfl⟩
    have hposition := position_eq htokens (by simp [Grammar.Condition.tokens])
    rw [Grammar.Condition.tokens, List.append_assoc] at htokens
    refine (gives_operand.2 ⟨lhs, htokens, rfl⟩).andThen fun s₁ h₁ => ?_
    refine (gives_comparison.2 ⟨operator, h₁⟩).andThen fun s₂ h₂ => ?_
    exact gives_map.2 ⟨_, gives_operand.2 ⟨rhs, h₂, rfl⟩, by rw [hposition]; rfl⟩

/-- The end of a statement, whatever is said of one that is missing. -/
theorem gives_guardAndEnd {behindGuard unguarded : ParseFault} {guard : Option Condition} :
    (s.guardAndEnd behindGuard unguarded).Gives guard rest ↔
      ∃ e : Grammar.Ending, s.tokens = e.tokens ++ rest ∧ e.guard = guard := by
  unfold guardAndEnd
  constructor
  · intro h
    split at h
    case isTrue hkind =>
      obtain ⟨keyword, hkeyword⟩ := exists_terminal hkind (by simp)
      obtain ⟨_, s₁, h₁, h⟩ := exists_of_andThen (gives_reads.1 h)
      obtain ⟨condition, hcondition, rfl⟩ := gives_condition.1 h₁
      obtain ⟨_, hend, rfl⟩ := gives_map.1 h
      obtain ⟨semicolon, hsemicolon⟩ := gives_expect.1 hend
      refine ⟨.guarded keyword condition semicolon, ?_, rfl⟩
      rw [hkeyword, hcondition, hsemicolon]
      simp [Grammar.Ending.tokens]
    case isFalse hkind =>
      obtain ⟨_, hend, rfl⟩ := gives_map.1 h
      obtain ⟨semicolon, hsemicolon⟩ := gives_expect.1 hend
      exact ⟨.unguarded semicolon, hsemicolon, rfl⟩
  · rintro ⟨e, htokens, rfl⟩
    cases e with
    | unguarded semicolon =>
      have hkind := kind_eq htokens
      rw [dif_neg (by simp [hkind])]
      exact gives_map.2 ⟨(), gives_expect.2 ⟨semicolon, htokens⟩, rfl⟩
    | guarded keyword condition semicolon =>
      rw [Grammar.Ending.tokens, List.append_assoc] at htokens
      have hkind : s.kind = .keyword .guard := kind_eq htokens
      rw [dif_pos hkind]
      refine gives_reads.2 ((gives_condition.2 ⟨condition, tokens_advance htokens, rfl⟩).andThen fun s₁ h₁ => ?_)
      exact gives_map.2 ⟨(), gives_expect.2 ⟨semicolon, h₁⟩, rfl⟩

/-- An action is finished by exactly the endings of the grammar. -/
theorem gives_finish {position : Position} {action : Action} {st : Statement} :
    (s.finish position action).Gives st rest ↔
      ∃ e : Grammar.Ending, s.tokens = e.tokens ++ rest ∧ .action action e.guard position = st := by
  unfold finish
  constructor
  · intro h
    obtain ⟨guard, hguard, rfl⟩ := gives_map.1 h
    obtain ⟨e, he, rfl⟩ := gives_guardAndEnd.1 hguard
    exact ⟨e, he, rfl⟩
  · rintro ⟨e, he, rfl⟩
    exact gives_map.2 ⟨_, gives_guardAndEnd.2 ⟨e, he, rfl⟩, rfl⟩

/-! ## Actions -/

/-- What is read is an action that begins at a position, and its end. -/
def IsAction (tokens : List Token) (position : Position) (st : Statement) (rest : List Token) : Prop :=
  ∃ (a : Grammar.Action) (e : Grammar.Ending), tokens = a.tokens ++ (e.tokens ++ rest) ∧ .action a.tree e.guard position = st

variable {position : Position} {st : Statement}

/-- What finishes a derived action is a derived statement. -/
theorem isAction_of_finish (a : Grammar.Action) {tokens : List Token} (htokens : tokens = a.tokens ++ s.tokens)
    (h : (s.finish position a.tree).Gives st rest) : IsAction tokens position st rest := by
  obtain ⟨e, he, rfl⟩ := gives_finish.1 h
  exact ⟨a, e, by rw [htokens, he], rfl⟩

/-- What is read behind a register and an equals sign is a derived statement. -/
theorem isAction_of_assign {dest : Register} (register : Terminal (.register dest)) (equals : Terminal (.symbol .assign))
    (h : (s.assign position dest).Gives st rest) :
    IsAction (register.token :: equals.token :: s.tokens) position st rest := by
  obtain ⟨_, s₁, h₁, h⟩ := exists_of_andThen h
  obtain ⟨lhs, hlhs, rfl⟩ := gives_operand.1 h₁
  split at h
  case h_1 op hkind =>
    obtain ⟨operator, hoperator⟩ := exists_terminal hkind nofun
    obtain ⟨_, s₂, h₂, h⟩ := exists_of_andThen (gives_reads.1 h)
    obtain ⟨rhs, hrhs, rfl⟩ := gives_operand.1 h₂
    refine isAction_of_finish (.compute register equals lhs operator rhs) ?_ h
    rw [hlhs, hoperator, hrhs]
    simp [Grammar.Action.tokens]
  case h_2 => exact isAction_of_finish (.assign register equals lhs) (by rw [hlhs]; rfl) h
  case h_3 => exact isAction_of_finish (.assign register equals lhs) (by rw [hlhs]; rfl) h
  case h_4 => exact absurd h not_gives_error

/-- What is read behind a register and an updating operator is a derived statement. -/
theorem isAction_of_update {dest : Register} {op : Operation} (register : Terminal (.register dest))
    (operator : Terminal (.symbol (.update op))) (h : (s.update position dest op).Gives st rest) :
    IsAction (register.token :: operator.token :: s.tokens) position st rest := by
  obtain ⟨_, s₁, h₁, h⟩ := exists_of_andThen h
  obtain ⟨source, hsource, rfl⟩ := gives_operand.1 h₁
  obtain ⟨_, hguard, rfl⟩ := gives_map.1 h
  obtain ⟨e, he, rfl⟩ := gives_guardAndEnd.1 hguard
  exact ⟨.update register operator source, e, by rw [hsource, he]; rfl, rfl⟩

/-- What is read behind a register is a derived statement. -/
theorem isAction_of_toRegister {dest : Register} (register : Terminal (.register dest))
    (h : (s.toRegister position dest).Gives st rest) : IsAction (register.token :: s.tokens) position st rest := by
  unfold toRegister at h
  split at h
  case h_1 hkind =>
    obtain ⟨equals, hequals⟩ := exists_terminal hkind nofun
    exact hequals ▸ isAction_of_assign register equals (gives_reads.1 h)
  case h_2 op hkind =>
    obtain ⟨operator, hoperator⟩ := exists_terminal hkind nofun
    exact hoperator ▸ isAction_of_update register operator (gives_reads.1 h)
  case h_3 => exact absurd h not_gives_error

/-- What is read behind the output sign is a derived statement. -/
theorem isAction_of_output (output : Terminal (.symbol .output)) (h : (s.output position).Gives st rest) :
    IsAction (output.token :: s.tokens) position st rest := by
  unfold Stream.output at h
  split at h
  case h_1 text hkind =>
    obtain ⟨literal, hliteral⟩ := exists_terminal hkind nofun
    exact isAction_of_finish (.printText output literal) (by rw [hliteral]; rfl) (gives_reads.1 h)
  case h_2 =>
    obtain ⟨_, s₁, h₁, h⟩ := exists_of_andThen h
    obtain ⟨source, hsource, rfl⟩ := gives_operand.1 h₁
    exact isAction_of_finish (.print output source) (by rw [hsource]; rfl) h

/-- What the push and the pop of a register have in common. -/
theorem isAction_of_stack {action : Register → Action} {keyword : Token}
    (derive : ∀ {r : Register}, Terminal (.register r) → Grammar.Action)
    (htokens : ∀ {r} (register : Terminal (.register r)), (derive register).tokens = [keyword, register.token])
    (htree : ∀ {r} (register : Terminal (.register r)), (derive register).tree = action r)
    (h : (s.stack position action).Gives st rest) : IsAction (keyword :: s.tokens) position st rest := by
  unfold stack at h
  split at h
  case h_1 r hkind =>
    obtain ⟨register, hregister⟩ := exists_terminal hkind nofun
    replace h : (s.advance.finish position (action r)).Gives st rest := gives_reads.1 h
    rw [← htree register] at h
    exact isAction_of_finish (derive register) (by rw [hregister, htokens]; rfl) h
  case h_2 => exact absurd h not_gives_error

/-! ## Beginnings of statements -/

/-- A derivation of what the parser reads before the block of a statement: all of an action, or the beginning of a loop or branch
and the brace that opens its block. -/
inductive Start where
  | action (a : Grammar.Action) (ending : Grammar.Ending)
  | loop (head : Grammar.LoopHead) (opening : Terminal (.symbol .braceOpen))
  | branch (head : Grammar.BranchHead) (opening : Terminal (.symbol .braceOpen))

/-- The tokens of a beginning. -/
def Start.tokens : Start → List Token
  | action a ending => a.tokens ++ ending.tokens
  | loop head opening => head.tokens ++ [opening.token]
  | branch head opening => head.tokens ++ [opening.token]

/-- What the parser makes of a beginning. -/
def Start.head : Start → Head
  | action a ending => .whole (.action a.tree ending.guard (start a.tokens))
  | loop head _ => .loop head.guard
  | branch head _ => .branch head.condition.tree

/-- What is read as the head of a loop is derived as one, up to the brace that opens its body. -/
theorem gives_loopHead (keyword : Terminal (.keyword .loop)) {guard : Option Condition} (h : s.loopHead.Gives guard rest) :
    ∃ (head : Grammar.LoopHead) (opening : Terminal (.symbol .braceOpen)),
      keyword.token :: s.tokens = head.tokens ++ opening.token :: rest ∧ head.guard = guard := by
  unfold loopHead at h
  split at h
  case isTrue hkind =>
    obtain ⟨paren, hparen⟩ := exists_terminal hkind nofun
    obtain ⟨_, s₁, h₁, h⟩ := exists_of_andThen (gives_reads.1 h)
    obtain ⟨condition, hcondition, rfl⟩ := gives_condition.1 h₁
    obtain ⟨_, s₂, h₂, h⟩ := exists_of_andThen h
    obtain ⟨closing, hclosing⟩ := gives_expect.1 h₂
    obtain ⟨_, h₃, rfl⟩ := gives_map.1 h
    obtain ⟨opening, hopening⟩ := gives_expect.1 h₃
    refine ⟨.conditional keyword paren condition closing, opening, ?_, rfl⟩
    rw [hparen, hcondition, hclosing, hopening]
    simp [Grammar.LoopHead.tokens]
  case isFalse hkind =>
    obtain ⟨_, h₁, rfl⟩ := gives_map.1 h
    obtain ⟨opening, hopening⟩ := gives_expect.1 h₁
    exact ⟨.endless keyword, opening, by rw [hopening]; rfl, rfl⟩

/-- What is read as the head of a branch is derived as one, up to the brace that opens its body. -/
theorem gives_branchHead (keyword : Terminal (.keyword .branch)) {condition : Condition} (h : s.branchHead.Gives condition rest) :
    ∃ (head : Grammar.BranchHead) (opening : Terminal (.symbol .braceOpen)),
      keyword.token :: s.tokens = head.tokens ++ opening.token :: rest ∧ head.condition.tree = condition := by
  obtain ⟨_, s₁, h₁, h⟩ := exists_of_andThen h
  obtain ⟨paren, hparen⟩ := gives_expect.1 h₁
  obtain ⟨_, s₂, h₂, h⟩ := exists_of_andThen h
  obtain ⟨condition, hcondition, rfl⟩ := gives_condition.1 h₂
  obtain ⟨_, s₃, h₃, h⟩ := exists_of_andThen h
  obtain ⟨closing, hclosing⟩ := gives_expect.1 h₃
  obtain ⟨_, h₄, rfl⟩ := gives_map.1 h
  obtain ⟨opening, hopening⟩ := gives_expect.1 h₄
  refine ⟨⟨keyword, paren, condition, closing⟩, opening, ?_, rfl⟩
  rw [hparen, hcondition, hclosing, hopening]
  simp [Grammar.BranchHead.tokens]

/-- The parser reads no beginning that is not one. -/
theorem exists_start {hd : Head} (h : s.head.Gives hd rest) : ∃ d : Start, s.tokens = d.tokens ++ rest ∧ d.head = hd := by
  have haction : ∀ {st}, IsAction s.tokens s.position st rest → ∃ d : Start, s.tokens = d.tokens ++ rest ∧ d.head = .whole st := by
    rintro st ⟨a, e, htokens, rfl⟩
    refine ⟨.action a e, by rw [htokens, Start.tokens, List.append_assoc], ?_⟩
    rw [position_eq htokens (by cases a <;> simp [Grammar.Action.tokens])]
    rfl
  have hword : ∀ {a : Grammar.Action} {t : Token}, a.tokens = [t] → s.tokens = t :: s.advance.tokens →
      ((s.advance.finish s.position a.tree).map .whole).Gives hd rest →
      ∃ d : Start, s.tokens = d.tokens ++ rest ∧ d.head = hd := by
    intro a t ha ht h
    obtain ⟨st, hst, rfl⟩ := gives_map.1 h
    exact haction (isAction_of_finish a (by rw [ha, ht]; rfl) hst)
  unfold head at h
  split at h
  case h_1 dest hkind =>
    obtain ⟨register, hregister⟩ := exists_terminal hkind (by simp)
    obtain ⟨st, hst, rfl⟩ := gives_map.1 (gives_reads.1 h)
    exact haction (hregister ▸ isAction_of_toRegister register hst)
  case h_2 name hkind =>
    obtain ⟨identifier, hidentifier⟩ := exists_terminal hkind (by simp)
    exact hword (a := .call identifier) rfl hidentifier (gives_reads.1 h)
  case h_3 hkind =>
    obtain ⟨output, houtput⟩ := exists_terminal hkind (by simp)
    obtain ⟨st, hst, rfl⟩ := gives_map.1 (gives_reads.1 h)
    exact haction (houtput ▸ isAction_of_output output hst)
  case h_4 hkind =>
    obtain ⟨keyword, hkeyword⟩ := exists_terminal hkind (by simp)
    exact hword (a := .breakLoop keyword) rfl hkeyword (gives_reads.1 h)
  case h_5 hkind =>
    obtain ⟨keyword, hkeyword⟩ := exists_terminal hkind (by simp)
    exact hword (a := .continueLoop keyword) rfl hkeyword (gives_reads.1 h)
  case h_6 hkind =>
    obtain ⟨keyword, hkeyword⟩ := exists_terminal hkind (by simp)
    exact hword (a := .returnCall keyword) rfl hkeyword (gives_reads.1 h)
  case h_7 hkind =>
    obtain ⟨keyword, hkeyword⟩ := exists_terminal hkind (by simp)
    obtain ⟨st, hst, rfl⟩ := gives_map.1 (gives_reads.1 h)
    exact haction (hkeyword ▸ isAction_of_stack (.push keyword) (fun _ => rfl) (fun _ => rfl) hst)
  case h_8 hkind =>
    obtain ⟨keyword, hkeyword⟩ := exists_terminal hkind (by simp)
    obtain ⟨st, hst, rfl⟩ := gives_map.1 (gives_reads.1 h)
    exact haction (hkeyword ▸ isAction_of_stack (.pop keyword) (fun _ => rfl) (fun _ => rfl) hst)
  case h_9 hkind =>
    obtain ⟨keyword, hkeyword⟩ := exists_terminal hkind (by simp)
    obtain ⟨guard, hguard, rfl⟩ := gives_map.1 (gives_reads.1 h)
    obtain ⟨head, opening, htokens, rfl⟩ := gives_loopHead keyword hguard
    exact ⟨.loop head opening, by rw [hkeyword, htokens, Start.tokens]; simp, rfl⟩
  case h_10 hkind =>
    obtain ⟨keyword, hkeyword⟩ := exists_terminal hkind (by simp)
    obtain ⟨condition, hcondition, rfl⟩ := gives_map.1 (gives_reads.1 h)
    obtain ⟨head, opening, htokens, rfl⟩ := gives_branchHead keyword hcondition
    exact ⟨.branch head opening, by rw [hkeyword, htokens, Start.tokens]; simp, rfl⟩
  case h_11 => exact absurd h not_gives_error

/-- An ending begins with a semicolon or with a guard. -/
theorem kind_of_ending {e : Grammar.Ending} (h : s.tokens = e.tokens ++ rest) :
    s.kind = .symbol .semicolon ∨ s.kind = .keyword .guard := by
  cases e with
  | unguarded semicolon => exact Or.inl (kind_eq h)
  | guarded keyword condition semicolon => exact Or.inr (kind_eq h)

/-- The parser reads every action and its end. -/
theorem gives_action (a : Grammar.Action) (e : Grammar.Ending) (h : s.tokens = a.tokens ++ (e.tokens ++ rest)) :
    s.head.Gives (.whole (.action a.tree e.guard (start a.tokens))) rest := by
  have hfinish : ∀ {r : Stream} {position : Position}, r.tokens = e.tokens ++ rest →
      (r.finish position a.tree).Gives (.action a.tree e.guard position) rest := fun hr => gives_finish.2 ⟨e, hr, rfl⟩
  obtain ⟨tokens, last⟩ := s
  obtain rfl : tokens = _ := h
  cases a with
  | assign register equals source =>
    refine gives_reads.2 (gives_map.2 ⟨_, gives_reads.2 ?_, rfl⟩)
    refine (gives_operand.2 ⟨source, rfl, rfl⟩).andThen fun r hr => ?_
    split
    case h_1 op hkind => rcases kind_of_ending hr with hkind' | hkind' <;> rw [hkind'] at hkind <;> cases hkind
    case h_2 hkind => exact hfinish hr
    case h_3 hkind => exact hfinish hr
    case h_4 hno hno' hno'' => 
      rcases kind_of_ending hr with hkind' | hkind'
      · exact absurd hkind' hno'
      · exact absurd hkind' hno''
  | compute register equals lhs operator rhs =>
    refine gives_reads.2 (gives_map.2 ⟨_, gives_reads.2 ?_, rfl⟩)
    refine (gives_operand.2 ⟨lhs, List.append_assoc _ _ _, rfl⟩).andThen fun r hr => ?_
    obtain ⟨tokens, last⟩ := r
    obtain rfl : tokens = _ := hr
    exact gives_reads.2 ((gives_operand.2 ⟨rhs, rfl, rfl⟩).andThen fun r hr => hfinish hr)
  | update register operator source =>
    refine gives_reads.2 (gives_map.2 ⟨_, gives_reads.2 ?_, rfl⟩)
    refine (gives_operand.2 ⟨source, rfl, rfl⟩).andThen fun r hr => ?_
    exact gives_map.2 ⟨_, gives_guardAndEnd.2 ⟨e, hr, rfl⟩, rfl⟩
  | breakLoop keyword => exact gives_reads.2 (gives_map.2 ⟨_, hfinish rfl, rfl⟩)
  | continueLoop keyword => exact gives_reads.2 (gives_map.2 ⟨_, hfinish rfl, rfl⟩)
  | returnCall keyword => exact gives_reads.2 (gives_map.2 ⟨_, hfinish rfl, rfl⟩)
  | call identifier => exact gives_reads.2 (gives_map.2 ⟨_, hfinish rfl, rfl⟩)
  | print output source =>
    refine gives_reads.2 (gives_map.2 ⟨_, ?_, rfl⟩)
    unfold Stream.output
    split
    case h_1 text hkind => cases source <;> cases hkind
    case h_2 => exact (gives_operand.2 ⟨source, rfl, rfl⟩).andThen fun r hr => hfinish hr
  | printText output literal => exact gives_reads.2 (gives_map.2 ⟨_, gives_reads.2 (hfinish rfl), rfl⟩)
  | push keyword register => exact gives_reads.2 (gives_map.2 ⟨_, gives_reads.2 (hfinish rfl), rfl⟩)
  | pop keyword register => exact gives_reads.2 (gives_map.2 ⟨_, gives_reads.2 (hfinish rfl), rfl⟩)

/-- Behind its keyword the head of a loop is read. -/
theorem head_loop (keyword : Terminal (.keyword .loop)) (rest : List Token) (last : Position) :
    head ⟨keyword.token :: rest, last⟩ = skip _ (by exact nofun) fun r => r.loopHead.map .loop := rfl

/-- The parser reads every beginning. -/
theorem gives_start (d : Start) (h : s.tokens = d.tokens ++ rest) : s.head.Gives d.head rest := by
  cases d with
  | action a e => exact gives_action a e (by rw [h, Start.tokens, List.append_assoc])
  | loop head opening =>
    rw [Start.tokens, List.append_assoc] at h
    obtain ⟨tokens, last⟩ := s
    obtain rfl : tokens = _ := h
    cases head with
    | endless keyword =>
      show (head ⟨keyword.token :: opening.token :: rest, last⟩).Gives (.loop none) rest
      rw [head_loop]
      refine gives_reads.2 (gives_map.2 ⟨none, ?_, rfl⟩)
      rw [loopHead, dif_neg (by exact nofun)]
      exact gives_map.2 ⟨(), gives_expect.2 ⟨opening, rfl⟩, rfl⟩
    | conditional keyword paren condition closing =>
      refine gives_reads.2 (gives_map.2 ⟨_, gives_reads.2 ?_, rfl⟩)
      refine (gives_condition.2 ⟨condition, List.append_assoc _ _ _, rfl⟩).andThen fun r hr => ?_
      refine (gives_expect.2 ⟨closing, hr⟩).andThen fun r hr => ?_
      exact gives_map.2 ⟨(), gives_expect.2 ⟨opening, hr⟩, rfl⟩
  | branch head opening =>
    rw [Start.tokens, List.append_assoc] at h
    obtain ⟨tokens, last⟩ := s
    obtain rfl : tokens = _ := h
    obtain ⟨keyword, paren, condition, closing⟩ := head
    refine gives_reads.2 (gives_map.2 ⟨_, ?_, rfl⟩)
    refine (gives_expect.2 ⟨paren, rfl⟩).andThen fun r hr => ?_
    refine (gives_condition.2 ⟨condition, hr.trans (List.append_assoc _ _ _), rfl⟩).andThen fun r hr => ?_
    refine (gives_expect.2 ⟨closing, hr⟩).andThen fun r hr => ?_
    exact gives_map.2 ⟨(), gives_expect.2 ⟨opening, hr⟩, rfl⟩

end Stream

end RegisterCompiler
