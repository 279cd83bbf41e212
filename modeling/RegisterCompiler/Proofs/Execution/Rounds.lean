import RegisterCompiler.Proofs.Execution.Meaning

/-!
# More rounds

The meaning of a program is given by the number of rounds and runs that it may carry out. With more of them an execution that was
unfinished goes on, and one that has stopped stays the same: every program has one execution, of which the meanings are parts.
-/

namespace RegisterCompiler

/-- An outcome is another one, or an unfinished part of it. -/
def Outcome.PartOf (o whole : Outcome) : Prop := o = whole ∨ o.stop = .unfinished ∧ o.events <+: whole.events

/-- What happens later is a part of other things that happen later. -/
structure Later.PartOf (later whole : Later) : Prop where
  rounds : ∀ condition body room scope,
    (later.rounds condition body room scope).PartOf (whole.rounds condition body room scope)
  procedure : ∀ name room registers, (later.procedure name room registers).PartOf (whole.procedure name room registers)

namespace Outcome

variable {o o' o'' : Outcome} {next next' : Departure → Scope → Outcome}

/-- An outcome is part of itself. -/
theorem PartOf.refl (o : Outcome) : o.PartOf o := .inl rfl

/-- Nothing yet is a part of every outcome. -/
theorem PartOf.of_nothing (o : Outcome) : PartOf ⟨[], .unfinished⟩ o := .inr ⟨rfl, List.nil_prefix⟩

/-- A part of a part is a part of the whole. -/
theorem PartOf.trans (h : o.PartOf o') (h' : o'.PartOf o'') : o.PartOf o'' := by
  obtain rfl | ⟨hstop, hevents⟩ := h
  · exact h'
  · obtain rfl | ⟨_, hevents'⟩ := h'
    · exact .inr ⟨hstop, hevents⟩
    · exact .inr ⟨hstop, hevents.trans hevents'⟩

/-- An outcome that has stopped is a part of itself alone. -/
theorem PartOf.eq_of_stop (h : o.PartOf o') (hstop : o.stop ≠ .unfinished) : o' = o := by
  obtain rfl | ⟨hopen, _⟩ := h
  · rfl
  · exact absurd hopen hstop

/-- Nothing follows an outcome that did not come to its end. -/
theorem andThen_of_unfinished (h : o.stop = .unfinished) : o.andThen next = o := by
  unfold andThen
  rw [h]

/-- What comes after an outcome only adds to its events. -/
theorem events_prefix_andThen (o : Outcome) (next : Departure → Scope → Outcome) : o.events <+: (o.andThen next).events := by
  unfold andThen
  split
  · exact List.prefix_append _ _
  · exact List.prefix_refl _

/-- If an outcome and what follows it are parts, so are both together. -/
theorem PartOf.andThen (h : o.PartOf o') (hnext : ∀ way scope, (next way scope).PartOf (next' way scope)) :
    (o.andThen next).PartOf (o'.andThen next') := by
  obtain rfl | ⟨hstop, hevents⟩ := h
  · obtain ⟨events, stop⟩ := o
    cases stop with
    | left way scope =>
      obtain heq | ⟨hstop, hevents⟩ := hnext way scope
      · exact .inl (by simp only [Outcome.andThen, heq])
      · exact .inr ⟨hstop, (List.prefix_append_right_inj events).2 hevents⟩
    | divideFault => exact .refl _
    | stackFault => exact .refl _
    | unfinished => exact .refl _
  · rw [andThen_of_unfinished hstop]
    exact .inr ⟨hstop, hevents.trans (events_prefix_andThen o' next')⟩

end Outcome

section

variable {later whole : Later}

/-- What follows a round of a loop is a part if the other rounds are. -/
theorem afterRound_partOf {rounds rounds' : Scope → Outcome} (h : ∀ scope, (rounds scope).PartOf (rounds' scope)) (way : Departure)
    (scope : Scope) : (afterRound rounds way scope).PartOf (afterRound rounds' way scope) := by
  cases way with
  | normal => exact h scope
  | continueLoop => exact h scope
  | breakLoop => exact .refl _
  | returned => exact .refl _

/-- What follows a statement is a part if the rest of its body is. -/
theorem afterStatement_partOf {rest rest' : Scope → Outcome} (h : ∀ scope, (rest scope).PartOf (rest' scope)) (way : Departure)
    (scope : Scope) : (afterStatement rest way scope).PartOf (afterStatement rest' way scope) := by
  cases way with
  | normal => exact h scope
  | breakLoop => exact .refl _
  | continueLoop => exact .refl _
  | returned => exact .refl _

/-- A loop is a part if its round and the rounds behind it are. -/
theorem loopMeaning_partOf {condition : Option Condition} {round round' rounds rounds' : Scope → Outcome}
    (hround : ∀ scope, (round scope).PartOf (round' scope)) (hrounds : ∀ scope, (rounds scope).PartOf (rounds' scope))
    (scope : Scope) : (loopMeaning condition round rounds scope).PartOf (loopMeaning condition round' rounds' scope) := by
  unfold loopMeaning
  split
  · exact (hround scope).andThen (afterRound_partOf hrounds)
  · exact .refl _

/-- Of the actions, only a call has a part of its outcome later. -/
theorem Action.meaning_partOf (h : later.PartOf whole) (room : Nat) (a : Action) (scope : Scope) :
    (a.meaning later room scope).PartOf (a.meaning whole room scope) := by
  cases a with
  | call name =>
    simp only [Action.meaning]
    split
    · exact (h.procedure _ _ _).andThen fun _ _ => .refl _
    · exact .refl _
  | _ => exact .refl _

mutual

/-- A statement with fewer calls left is a part of the statement with more. -/
theorem Statement.meaning_partOf (h : later.PartOf whole) (room : Nat) (s : Statement) (scope : Scope) :
    (s.meaning later room scope).PartOf (s.meaning whole room scope) := by
  cases s with
  | action a guard position =>
    simp only [Statement.meaning]
    exact a.meaning_partOf h room scope
  | loop condition body guard position =>
    simp only [Statement.meaning]
    exact loopMeaning_partOf (bodyMeaning_partOf h room body) (h.rounds condition body room) scope
  | branch condition thenBody elseBody guard position =>
    simp only [Statement.meaning]
    split
    · exact bodyMeaning_partOf h room thenBody scope
    · exact bodyMeaning_partOf h room elseBody scope

/-- So is a body. -/
theorem bodyMeaning_partOf (h : later.PartOf whole) (room : Nat) (body : List Statement) (scope : Scope) :
    (bodyMeaning later room body scope).PartOf (bodyMeaning whole room body scope) := by
  cases body with
  | nil =>
    simp only [bodyMeaning]
    exact .refl _
  | cons s rest =>
    simp only [bodyMeaning]
    refine Outcome.PartOf.andThen ?_ (afterStatement_partOf (bodyMeaning_partOf h room rest))
    split
    · exact s.meaning_partOf h room scope
    · exact .refl _

end

end

namespace ProcedureTable

variable {table : ProcedureTable} {n m room : Nat} {registers : Register → Int64}

/-- So is a procedure. -/
theorem procedureMeaning_partOf {later whole : Later} (h : later.PartOf whole) (name : String) (room : Nat)
    (registers : Register → Int64) :
    (table.procedureMeaning later name room registers).PartOf (table.procedureMeaning whole name room registers) :=
  (bodyMeaning_partOf h room _ _).andThen fun _ _ => .refl _

/-- One more round is one more inside every round. -/
theorem later_partOf_succ (table : ProcedureTable) (n : Nat) : (table.later n).PartOf (table.later (n + 1)) := by
  induction n with
  | zero => exact ⟨fun _ _ _ _ => .of_nothing _, fun _ _ _ => .of_nothing _⟩
  | succ n ih =>
    refine ⟨fun condition body room scope => ?_, procedureMeaning_partOf ih⟩
    exact loopMeaning_partOf (bodyMeaning_partOf ih room body) (ih.rounds condition body room) scope

/-- With more rounds and runs an execution goes on where it was unfinished. -/
theorem meaning_partOf (h : n ≤ m) : (table.meaning n room registers).PartOf (table.meaning m room registers) := by
  induction h with
  | refl => exact .refl _
  | step _ ih => exact ih.trans (procedureMeaning_partOf (table.later_partOf_succ _) _ _ _)

/-- An execution that has stopped does not change with more rounds and runs. -/
theorem meaning_eq_of_le (h : n ≤ m) (hstop : (table.meaning n room registers).stop ≠ .unfinished) :
    table.meaning m room registers = table.meaning n room registers :=
  (meaning_partOf h).eq_of_stop hstop

end ProcedureTable

end RegisterCompiler
