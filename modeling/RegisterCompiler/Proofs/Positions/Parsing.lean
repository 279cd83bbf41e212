import Mathlib
import RegisterCompiler.Proofs.Positions.Unplaced

/-!
# Parsing without positions

The parser puts positions into what it reads and into its errors, and never looks at them. So a stream without positions is
read as the stream itself is, and what comes of it is the same without positions (`Stream.procedures_unplaced`): one rule for
each way readings are composed, and from these one lemma for each part of the parser.
-/

namespace RegisterCompiler

namespace Stream

variable {s : Stream} {α β : Type}

/-- A reading of a stream as a reading of the stream without positions; the function takes the positions from the result. -/
def Reads.unplaced (f : α → α) (x : Reads s α) : Reads s.unplaced α :=
  match x with
  | .error e => .error e.unplaced
  | .ok (a, r) => .ok (f a, ⟨r.val.unplaced, by rw [size_unplaced, size_unplaced]; exact r.property⟩)

/-! ## Readings composed -/

/-- A reading behind some tokens, taken without positions. -/
theorem unplaced_reads {f : α → α} {r : After s} {h : r.val.unplaced.size < s.unplaced.size} {x : Reads r.val α}
    {y : Reads r.val.unplaced α} (hx : y = x.unplaced f) :
    After.reads ⟨r.val.unplaced, h⟩ y = (r.reads x).unplaced f := by
  subst hx
  cases x <;> rfl

/-- What is made of a reading, taken without positions. -/
theorem Reads.unplaced_map {f : α → α} {g : β → β} {φ φ' : α → β} {x : Reads s α} (h : ∀ a, φ' (f a) = g (φ a)) :
    (x.unplaced f).map φ' = (x.map φ).unplaced g := by
  rcases x with e | ⟨a, r⟩
  · rfl
  · show Except.ok (φ' (f a), _) = Except.ok (g (φ a), _)
    rw [h]

/-- Two readings, taken without positions one after the other. -/
theorem Reads.unplaced_andThen {f : α → α} {g : β → β} {x : Reads s α} {k k' : α → (r : Stream) → Reads r β}
    (h : ∀ a r, k' (f a) r.unplaced = (k a r).unplaced g) : (x.unplaced f).andThen k' = (x.andThen k).unplaced g := by
  rcases x with e | ⟨a, r⟩
  · rfl
  · exact unplaced_reads (h a r.val)

/-- A token is read the same without positions. -/
theorem token_unplaced {f : α → α} {a : α} (h : s.kind ≠ .endOfInput) (h' : s.unplaced.kind ≠ .endOfInput) :
    s.unplaced.token h' (f a) = (s.token h a).unplaced f := by
  obtain ⟨_ | ⟨t, rest⟩, last⟩ := s
  · exact absurd rfl h
  · rfl

/-- What stands behind a token is read the same without positions if its reading is. -/
theorem skip_unplaced {f : α → α} {k k' : (r : Stream) → Reads r α} (h : s.kind ≠ .endOfInput)
    (h' : s.unplaced.kind ≠ .endOfInput) (hk : ∀ r, k' r.unplaced = (k r).unplaced f) :
    s.unplaced.skip h' k' = (s.skip h k).unplaced f := by
  obtain ⟨_ | ⟨t, rest⟩, last⟩ := s
  · exact absurd rfl h
  · exact unplaced_reads (r := ⟨advance ⟨t :: rest, last⟩, size_advance_lt h⟩) (hk ⟨rest, t.span.stop⟩)

/-- An expected symbol is read the same without positions. -/
theorem expect_unplaced (s : Stream) (symbol : Symbol) (fault : ParseFault) :
    s.unplaced.expect symbol fault = (s.expect symbol fault).unplaced id := by
  by_cases h : s.kind = .symbol symbol
  · have h' : s.unplaced.kind = .symbol symbol := s.kind_unplaced.trans h
    rw [expect, expect, dif_pos h, dif_pos h']
    exact token_unplaced (f := id) _ _
  · have h' : ¬ s.unplaced.kind = .symbol symbol := by rwa [kind_unplaced]
    rw [expect, expect, dif_neg h, dif_neg h', error_unplaced]
    rfl

/-! ## Operands and conditions -/

theorem operand_unplaced (s : Stream) : s.unplaced.operand = s.operand.unplaced Operand.unplaced := by
  obtain ⟨_ | ⟨⟨kind, span, lexeme⟩, rest⟩, last⟩ := s
  · rfl
  · cases kind with
    | symbol symbol =>
      cases symbol with
      | operation op =>
        cases op with
        | sub =>
          rw [operand, operand]
          refine skip_unplaced _ _ fun r => ?_
          obtain ⟨_ | ⟨⟨kind, span', lexeme⟩, rest⟩, last⟩ := r
          · rfl
          · cases kind <;> rfl
        | _ => rfl
      | _ => rfl
    | _ => rfl

theorem comparison_unplaced (s : Stream) : s.unplaced.comparison = s.comparison.unplaced id := by
  obtain ⟨_ | ⟨⟨kind, span, lexeme⟩, rest⟩, last⟩ := s
  · rfl
  · cases kind with
    | symbol symbol => cases symbol <;> rfl
    | _ => rfl

theorem condition_unplaced (s : Stream) : s.unplaced.condition = s.condition.unplaced Condition.unplaced := by
  rw [condition, condition, operand_unplaced]
  refine Reads.unplaced_andThen fun lhs s₁ => ?_
  rw [comparison_unplaced]
  refine Reads.unplaced_andThen fun c s₂ => ?_
  rw [operand_unplaced]
  refine Reads.unplaced_map fun rhs => ?_
  rw [position_unplaced]
  rfl

/-- A guard and the semicolon behind it are read the same without positions. -/
theorem guardAndEnd_unplaced (s : Stream) (behindGuard unguarded : ParseFault) :
    s.unplaced.guardAndEnd behindGuard unguarded =
      (s.guardAndEnd behindGuard unguarded).unplaced (Option.map Condition.unplaced) := by
  by_cases h : s.kind = .keyword .guard
  · have h' : s.unplaced.kind = .keyword .guard := s.kind_unplaced.trans h
    rw [guardAndEnd, guardAndEnd, dif_pos h, dif_pos h']
    refine skip_unplaced _ _ fun r => ?_
    rw [condition_unplaced]
    refine Reads.unplaced_andThen fun guard s₂ => ?_
    rw [expect_unplaced]
    exact Reads.unplaced_map fun _ => rfl
  · have h' : ¬ s.unplaced.kind = .keyword .guard := by rwa [kind_unplaced]
    rw [guardAndEnd, guardAndEnd, dif_neg h, dif_neg h', expect_unplaced]
    exact Reads.unplaced_map fun _ => rfl

/-! ## Actions -/

theorem finish_unplaced (s : Stream) (start : Position) (action : Action) :
    s.unplaced.finish .unknown action.unplaced = (s.finish start action).unplaced Statement.unplaced := by
  rw [finish, finish, guardAndEnd_unplaced]
  refine Reads.unplaced_map fun guard => ?_
  rw [Statement.unplaced]

theorem update_unplaced (s : Stream) (start : Position) (dest : Register) (op : Operation) :
    s.unplaced.update .unknown dest op = (s.update start dest op).unplaced Statement.unplaced := by
  rw [update, update, operand_unplaced]
  refine Reads.unplaced_andThen fun source s₁ => ?_
  rw [guardAndEnd_unplaced]
  refine Reads.unplaced_map fun guard => ?_
  rw [Statement.unplaced, Action.unplaced]

theorem assign_unplaced (s : Stream) (start : Position) (dest : Register) :
    s.unplaced.assign .unknown dest = (s.assign start dest).unplaced Statement.unplaced := by
  rw [assign, assign, operand_unplaced]
  refine Reads.unplaced_andThen fun lhs s₁ => ?_
  obtain ⟨_ | ⟨⟨kind, span, lexeme⟩, rest⟩, last⟩ := s₁
  · rfl
  · cases kind with
    | symbol symbol =>
      cases symbol with
      | operation op =>
        refine skip_unplaced _ _ fun s₂ => ?_
        rw [operand_unplaced]
        exact Reads.unplaced_andThen fun rhs s₃ => s₃.finish_unplaced start (.compute dest op lhs rhs)
      | semicolon => exact finish_unplaced _ start (.assign dest lhs)
      | _ => rfl
    | keyword k =>
      cases k with
      | guard => exact finish_unplaced _ start (.assign dest lhs)
      | _ => rfl
    | _ => rfl

theorem toRegister_unplaced (s : Stream) (start : Position) (dest : Register) :
    s.unplaced.toRegister .unknown dest = (s.toRegister start dest).unplaced Statement.unplaced := by
  rw [toRegister, toRegister]
  obtain ⟨_ | ⟨⟨kind, span, lexeme⟩, rest⟩, last⟩ := s
  · rfl
  · cases kind with
    | symbol symbol =>
      cases symbol with
      | assign => exact skip_unplaced _ _ fun r => r.assign_unplaced start dest
      | update op => exact skip_unplaced _ _ fun r => r.update_unplaced start dest op
      | _ => rfl
    | _ => rfl

theorem output_unplaced (s : Stream) (start : Position) :
    s.unplaced.output .unknown = (s.output start).unplaced Statement.unplaced := by
  have hoperand : s.unplaced.operand.andThen (fun source r => r.finish .unknown (.print source)) =
      (s.operand.andThen fun source r => r.finish start (.print source)).unplaced Statement.unplaced := by
    rw [operand_unplaced]
    exact Reads.unplaced_andThen fun source r => r.finish_unplaced start (.print source)
  rw [output, output]
  obtain ⟨_ | ⟨⟨kind, span, lexeme⟩, rest⟩, last⟩ := s
  · exact hoperand
  · cases kind with
    | text text => exact skip_unplaced _ _ fun r => r.finish_unplaced start (.printText text)
    | _ => exact hoperand

theorem stack_unplaced (s : Stream) (start : Position) {action : Register → Action}
    (h : ∀ r, (action r).unplaced = action r) :
    s.unplaced.stack .unknown action = (s.stack start action).unplaced Statement.unplaced := by
  rw [stack, stack]
  obtain ⟨_ | ⟨⟨kind, span, lexeme⟩, rest⟩, last⟩ := s
  · rfl
  · cases kind with
    | register reg =>
      refine skip_unplaced _ _ fun r => ?_
      have hfinish := r.finish_unplaced start (action reg)
      rwa [h] at hfinish
    | _ => rfl

/-! ## Loops and branches -/

theorem loopHead_unplaced (s : Stream) :
    s.unplaced.loopHead = s.loopHead.unplaced (Option.map Condition.unplaced) := by
  by_cases h : s.kind = .symbol .parenOpen
  · have h' : s.unplaced.kind = .symbol .parenOpen := s.kind_unplaced.trans h
    rw [loopHead, loopHead, dif_pos h, dif_pos h']
    refine skip_unplaced _ _ fun r => ?_
    rw [condition_unplaced]
    refine Reads.unplaced_andThen fun condition s₂ => ?_
    rw [expect_unplaced]
    refine Reads.unplaced_andThen fun _ s₃ => ?_
    rw [expect_unplaced]
    exact Reads.unplaced_map fun _ => rfl
  · have h' : ¬ s.unplaced.kind = .symbol .parenOpen := by rwa [kind_unplaced]
    rw [loopHead, loopHead, dif_neg h, dif_neg h', expect_unplaced]
    exact Reads.unplaced_map fun _ => rfl

theorem branchHead_unplaced (s : Stream) : s.unplaced.branchHead = s.branchHead.unplaced Condition.unplaced := by
  rw [branchHead, branchHead, expect_unplaced]
  refine Reads.unplaced_andThen fun _ s₁ => ?_
  rw [condition_unplaced]
  refine Reads.unplaced_andThen fun condition s₂ => ?_
  rw [expect_unplaced]
  refine Reads.unplaced_andThen fun _ s₃ => ?_
  rw [expect_unplaced]
  exact Reads.unplaced_map fun _ => rfl

/-- A statement that ends behind its first words. -/
theorem whole_unplaced {x : Reads s Statement} {y : Reads s.unplaced Statement} (h : y = x.unplaced Statement.unplaced) :
    y.map Head.whole = (x.map Head.whole).unplaced Head.unplaced := by
  rw [h]
  exact Reads.unplaced_map fun _ => rfl

theorem head_unplaced (s : Stream) : s.unplaced.head = s.head.unplaced Head.unplaced := by
  rw [head, head, position_unplaced]
  generalize s.position = start
  obtain ⟨_ | ⟨⟨kind, span, lexeme⟩, rest⟩, last⟩ := s
  · rfl
  · cases kind with
    | register dest => exact skip_unplaced _ _ fun r => whole_unplaced (r.toRegister_unplaced start dest)
    | identifier procedure => exact skip_unplaced _ _ fun r => whole_unplaced (r.finish_unplaced start (.call procedure))
    | symbol symbol =>
      cases symbol with
      | output => exact skip_unplaced _ _ fun r => whole_unplaced (r.output_unplaced start)
      | _ => rfl
    | keyword k =>
      cases k with
      | breakLoop => exact skip_unplaced _ _ fun r => whole_unplaced (r.finish_unplaced start .breakLoop)
      | continueLoop => exact skip_unplaced _ _ fun r => whole_unplaced (r.finish_unplaced start .continueLoop)
      | returnCall => exact skip_unplaced _ _ fun r => whole_unplaced (r.finish_unplaced start .returnCall)
      | push => exact skip_unplaced _ _ fun r => whole_unplaced (r.stack_unplaced start fun _ => rfl)
      | pop => exact skip_unplaced _ _ fun r => whole_unplaced (r.stack_unplaced start fun _ => rfl)
      | loop =>
        refine skip_unplaced _ _ fun r => ?_
        rw [loopHead_unplaced]
        exact Reads.unplaced_map fun _ => rfl
      | branch =>
        refine skip_unplaced _ _ fun r => ?_
        rw [branchHead_unplaced]
        exact Reads.unplaced_map fun _ => rfl
      | _ => rfl
    | _ => rfl

/-- The head of an else-body is read the same without positions. -/
theorem elseHead_unplaced (s : Stream) (h : s.kind = .keyword .otherwise) (h' : s.unplaced.kind = .keyword .otherwise) :
    s.unplaced.elseHead h' = (s.elseHead h).unplaced id := by
  rw [elseHead, elseHead]
  exact skip_unplaced _ _ fun r => r.expect_unplaced .braceOpen .elseBody

mutual

/-- A statement is read the same without positions. -/
theorem statement_unplaced (s : Stream) : s.unplaced.statement = s.statement.unplaced Statement.unplaced := by
  rw [statement, statement, head_unplaced, position_unplaced]
  rcases s.head with e | ⟨whole | condition | condition, r⟩
  · rfl
  · rfl
  · refine unplaced_reads ?_
    rw [body_unplaced r.val]
    refine Reads.unplaced_map fun statements => ?_
    rw [Statement.unplaced]
    rfl
  · refine unplaced_reads ?_
    rw [body_unplaced r.val]
    rcases body r.val with e | ⟨thenBody, r₁⟩
    · rfl
    by_cases h : r₁.val.kind = .keyword .otherwise
    · have h' : r₁.val.unplaced.kind = .keyword .otherwise := r₁.val.kind_unplaced.trans h
      simp only [Reads.unplaced, dif_pos h, dif_pos h']
      refine unplaced_reads ?_
      rw [elseHead_unplaced _ h]
      rcases r₁.val.elseHead h with e | ⟨_, r₂⟩
      · rfl
      refine unplaced_reads ?_
      rw [body_unplaced r₂.val]
      refine Reads.unplaced_map fun elseBody => ?_
      rw [Statement.unplaced]
      rfl
    · have h' : ¬ r₁.val.unplaced.kind = .keyword .otherwise := by rwa [kind_unplaced]
      simp only [Reads.unplaced, dif_neg h, dif_neg h']
      rw [Statement.unplaced]
      rfl
termination_by (s.size, 0)
decreasing_by
  · exact Prod.Lex.left _ _ r.property
  · exact Prod.Lex.left _ _ r.property
  · exact Prod.Lex.left _ _ (Nat.lt_trans r₂.property (Nat.lt_trans r₁.property r.property))

/-- A body is read the same without positions. -/
theorem body_unplaced (s : Stream) : s.unplaced.body = s.body.unplaced unplacedBody := by
  by_cases h : s.kind = .symbol .braceClose
  · have h' : s.unplaced.kind = .symbol .braceClose := s.kind_unplaced.trans h
    rw [body, body, dif_pos h, dif_pos h']
    exact token_unplaced (f := unplacedBody) (a := []) _ _
  · have h' : ¬ s.unplaced.kind = .symbol .braceClose := by rwa [kind_unplaced]
    rw [body, body, dif_neg h, dif_neg h', statement_unplaced s]
    rcases s.statement with e | ⟨statement, r⟩
    · rfl
    refine unplaced_reads ?_
    rw [body_unplaced r.val]
    exact Reads.unplaced_map fun _ => rfl
termination_by (s.size, 1)
decreasing_by
  · exact Prod.Lex.right _ (by decide)
  · exact Prod.Lex.left _ _ r.property

end

/-! ## Procedures -/

/-- The name of a procedure and its body are read the same without positions. -/
theorem named_unplaced (s : Stream) : s.unplaced.named = s.named.unplaced Procedure.unplaced := by
  rw [named, named, position_unplaced]
  generalize s.position = start
  obtain ⟨_ | ⟨⟨kind, span, lexeme⟩, rest⟩, last⟩ := s
  · rfl
  · cases kind with
    | identifier name =>
      refine skip_unplaced _ _ fun s₁ => ?_
      rw [expect_unplaced]
      refine Reads.unplaced_andThen fun _ s₂ => ?_
      rw [body_unplaced]
      exact Reads.unplaced_map fun _ => rfl
    | _ => rfl

/-- A procedure is read the same without positions. -/
theorem procedure_unplaced (s : Stream) : s.unplaced.procedure = s.procedure.unplaced Procedure.unplaced := by
  by_cases h : s.kind = .keyword .procedure
  · have h' : s.unplaced.kind = .keyword .procedure := s.kind_unplaced.trans h
    rw [procedure, procedure, dif_pos h, dif_pos h']
    exact skip_unplaced _ _ fun r => r.named_unplaced
  · have h' : ¬ s.unplaced.kind = .keyword .procedure := by rwa [kind_unplaced]
    rw [procedure, procedure, dif_neg h, dif_neg h', error_unplaced]
    rfl

/-- A stream without positions is read as the stream is, into the same table without positions or to the same fault. -/
theorem procedures_unplaced (s : Stream) (table : ProcedureTable) : s.unplaced.procedures table.unplaced =
    mapOutcome ProcedureTable.unplaced ParseError.unplaced (s.procedures table) := by
  rw [procedures, procedures.eq_def s, kind_unplaced]
  split
  · rfl
  · rw [procedure_unplaced]
    rcases s.procedure with e | ⟨p, r⟩
    · rfl
    simp only [Reads.unplaced]
    rw [ProcedureTable.insert_unplaced]
    rcases table.insert p with duplicate | table
    · rfl
    · exact procedures_unplaced r.val table
termination_by s.size
decreasing_by exact r.property

end Stream

/-- Tokens of the same kinds write the same program but for its positions, or the same fault. -/
theorem parseTokens_congr {a b : List Token} (h : a.map (·.kind) = b.map (·.kind)) :
    mapOutcome ProcedureTable.unplaced ParseError.unplaced (parseTokens a) =
      mapOutcome ProcedureTable.unplaced ParseError.unplaced (parseTokens b) := by
  rw [parseTokens, parseTokens, ← Stream.procedures_unplaced, ← Stream.procedures_unplaced,
    Stream.unplaced_ofTokens_congr h]

end RegisterCompiler
