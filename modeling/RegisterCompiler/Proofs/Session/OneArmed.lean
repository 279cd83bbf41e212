import Mathlib
import RegisterCompiler.Proofs.Session.Outcome

/-!
# Guards as branches

A statement behind a guard is compiled as the branch that has the guard for its condition, the statement for its first body and no
second one. `branched` writes every guard so, at every depth, and the table that comes of it has no guard left (`GuardFree`). The
two tables are compiled to the same program or refused for the same error (`ProcedureTable.compile_branched`).

A branch places the errors of its body on its own, and a guard does not. The difference cannot be seen from outside, because the
body has the position of the branch and a position is given only once: steps are compared as they are placed (`AgreeAt`).
-/

namespace RegisterCompiler

open X64 (Hole)

/-! ## Every guard as a branch -/

/-- A statement that is run only if the guard holds, written as a branch without a second body. -/
def Statement.oneArmed (guard : Option Condition) (position : Position) (s : Statement) : Statement :=
  match guard with
  | none => s
  | some condition => .branch condition [s] [] none position

mutual

/-- A statement with its guard, and every guard inside it, written as a branch. -/
def Statement.branched : Statement → Statement
  | .action a guard position => .oneArmed guard position (.action a none position)
  | .loop condition statements guard position =>
    .oneArmed guard position (.loop condition (branchedBody statements) none position)
  | .branch condition thenBody elseBody guard position =>
    .oneArmed guard position (.branch condition (branchedBody thenBody) (branchedBody elseBody) none position)

/-- Statements with every guard written as a branch. -/
def branchedBody : List Statement → List Statement
  | [] => []
  | s :: rest => s.branched :: branchedBody rest

end

/-- A procedure with every guard written as a branch. -/
def Procedure.branched (p : Procedure) : Procedure := { p with body := branchedBody p.body }

/-- A table with every guard written as a branch. -/
def ProcedureTable.branched (table : ProcedureTable) : ProcedureTable where
  procedures := table.procedures.map Procedure.branched
  names_nodup := by
    rw [List.map_map]
    exact table.names_nodup

mutual

/-- Neither a statement nor one inside it has a guard. -/
def Statement.GuardFree : Statement → Prop
  | .action _ guard _ => guard = none
  | .loop _ statements guard _ => guard = none ∧ GuardFreeBody statements
  | .branch _ thenBody elseBody guard _ => guard = none ∧ GuardFreeBody thenBody ∧ GuardFreeBody elseBody

/-- No statement has a guard, at any depth. -/
def GuardFreeBody : List Statement → Prop
  | [] => True
  | s :: rest => s.GuardFree ∧ GuardFreeBody rest

end

/-- No statement of a table has a guard, at any depth. -/
def ProcedureTable.GuardFree (table : ProcedureTable) : Prop := ∀ p ∈ table.procedures, GuardFreeBody p.body

/-- A branch with one arm around a statement without guards has no guard. -/
theorem Statement.GuardFree.oneArmed {s : Statement} (h : s.GuardFree) (guard : Option Condition) (position : Position) :
    (oneArmed guard position s).GuardFree := by
  cases guard with
  | none => exact h
  | some condition =>
    simp only [Statement.oneArmed, Statement.GuardFree, GuardFreeBody]
    exact ⟨trivial, ⟨h, trivial⟩, trivial⟩

mutual

/-- With guards written as branches, a statement has none. -/
theorem Statement.guardFree_branched : ∀ s : Statement, s.branched.GuardFree
  | .action a guard position => by
    rw [Statement.branched]
    refine Statement.GuardFree.oneArmed ?_ guard position
    rw [Statement.GuardFree]
  | .loop condition statements guard position => by
    rw [Statement.branched]
    refine Statement.GuardFree.oneArmed ?_ guard position
    rw [Statement.GuardFree]
    exact ⟨rfl, guardFreeBody_branchedBody statements⟩
  | .branch condition thenBody elseBody guard position => by
    rw [Statement.branched]
    refine Statement.GuardFree.oneArmed ?_ guard position
    rw [Statement.GuardFree]
    exact ⟨rfl, guardFreeBody_branchedBody thenBody, guardFreeBody_branchedBody elseBody⟩

/-- With guards written as branches, a body has none. -/
theorem guardFreeBody_branchedBody : ∀ statements, GuardFreeBody (branchedBody statements)
  | [] => by
    rw [branchedBody, GuardFreeBody]
    trivial
  | s :: rest => by
    rw [branchedBody, GuardFreeBody]
    exact ⟨s.guardFree_branched, guardFreeBody_branchedBody rest⟩

end

/-- With guards written as branches, a program has none. -/
theorem ProcedureTable.guardFree_branched (table : ProcedureTable) : table.branched.GuardFree := by
  intro p hp
  obtain ⟨q, -, rfl⟩ := List.mem_map.1 hp
  exact guardFreeBody_branchedBody q.body

/-- The branch for a guard stands where its statement did. -/
theorem Statement.position_branched (s : Statement) : s.branched.position = s.position := by
  cases s with
  | action a guard position => rw [branched]; cases guard <;> rfl
  | loop condition statements guard position => rw [branched]; cases guard <;> rfl
  | branch condition thenBody elseBody guard position => rw [branched]; cases guard <;> rfl

/-- A body is as empty with its guards written as branches. -/
theorem isEmpty_branchedBody (statements : List Statement) : (branchedBody statements).isEmpty = statements.isEmpty := by
  cases statements <;> rw [branchedBody]
  rfl

/-! ## Steps as they are placed -/

/-- An error that has been placed is not placed again. -/
theorem CompileError.placedAt_placedAt (position : Position) (e : CompileError) :
    (e.placedAt position).placedAt position = e.placedAt position := by
  rcases e with ⟨fault, known⟩
  cases fault with
  | assembly a =>
    by_cases h : known = Position.unknown
    · simp [placedAt, h]
    · simp [placedAt, h]
  | _ => rfl

namespace Compile

variable {α β : Type} {position : Position}

/-- Two steps are the same once their errors are placed. -/
def AgreeAt (position : Position) (x y : Compile α) : Prop := placedAt position x = placedAt position y

/-- Steps are the same that run to the same outcome from every session. -/
theorem eq_of_run {x y : Compile α} (h : ∀ s, x.run s = y.run s) : x = y := funext h

theorem AgreeAt.rfl {x : Compile α} : AgreeAt position x x := Eq.refl _

theorem AgreeAt.trans {x y z : Compile α} (h : AgreeAt position x y) (h' : AgreeAt position y z) : AgreeAt position x z :=
  Eq.trans h h'

/-- Steps that are the same once placed leave the same session, and the same result up to the place of an error. -/
theorem AgreeAt.run {x y : Compile α} (h : AgreeAt position x y) (s : Session) :
    (x.run s).1.mapError (CompileError.placedAt position) = (y.run s).1.mapError (CompileError.placedAt position) ∧
      (x.run s).2 = (y.run s).2 := by
  have hrun : (placedAt position x).run s = (placedAt position y).run s := congrArg (fun step => step.run s) h
  rw [run_placedAt, run_placedAt, Prod.mk.injEq] at hrun
  exact hrun

/-- A step agrees with itself placed. -/
theorem agreeAt_placedAt (x : Compile α) : AgreeAt position (placedAt position x) x := by
  refine eq_of_run fun s => ?_
  rw [run_placedAt, run_placedAt]
  rcases x.run s with ⟨e | a, after⟩
  · show (Except.error ((e.placedAt position).placedAt position), after) = (Except.error (e.placedAt position), after)
    rw [CompileError.placedAt_placedAt]
  · rfl

/-- Steps that agree, one behind the other. -/
theorem AgreeAt.bind {x y : Compile α} {f g : α → Compile β} (h : AgreeAt position x y)
    (hfg : ∀ a, AgreeAt position (f a) (g a)) : AgreeAt position (x >>= f) (y >>= g) := by
  refine eq_of_run fun s => ?_
  obtain ⟨hresult, hafter⟩ := h.run s
  rw [run_placedAt, run_placedAt, run_bind, run_bind]
  rcases hx : x.run s with ⟨e | a, after⟩ <;> rcases hy : y.run s with ⟨e' | a', after'⟩ <;>
    rw [hx, hy] at hresult hafter
  · simp only [Except.mapError, Except.error.injEq] at hresult hafter ⊢
    rw [hresult, hafter]
  · simp [Except.mapError] at hresult
  · simp [Except.mapError] at hresult
  · simp only [Except.mapError, Except.ok.injEq] at hresult hafter
    subst hresult hafter
    exact Prod.ext ((hfg a).run after).1 ((hfg a).run after).2

/-- A branch that has one statement in its first body and none in its second, as the statement behind a guard. -/
theorem agreeAt_oneArmed (guard : Option Condition) (s : Statement) (step : Compile Unit)
    (h : AgreeAt s.position (statement s) step) :
    AgreeAt s.position (statement (.oneArmed guard s.position s)) (guarded guard step) := by
  cases guard with
  | none => exact h
  | some condition =>
    rw [Statement.oneArmed, statement]
    show AgreeAt s.position
      (skipUnless condition >>= fun skip => body [s] >>= fun _ => offset >>= fun stop => landSkip skip stop)
      (skipUnless condition >>= fun skip => step >>= fun _ => offset >>= fun stop => landSkip skip stop)
    refine .bind .rfl fun skip => .bind ?_ fun _ => .rfl
    have hbody : body [s] = placedAt s.position (statement s) := by
      rw [body, body]
      exact bind_pure _
    rw [hbody]
    exact (agreeAt_placedAt _).trans h

mutual

/-- A statement with its guards written as branches is compiled as the statement itself, but for the place of an error that its
body has not placed. -/
theorem agreeAt_branched : ∀ s : Statement, AgreeAt s.position (statement s.branched) (statement s)
  | .action a guard position => by
    rw [Statement.branched, statement]
    refine agreeAt_oneArmed guard (.action a none position) _ ?_
    rw [statement]
    exact .rfl
  | .loop condition statements guard position => by
    rw [Statement.branched, statement]
    refine agreeAt_oneArmed guard (.loop condition (branchedBody statements) none position) _ ?_
    rw [statement, body_branchedBody statements]
    exact .rfl
  | .branch condition thenBody elseBody guard position => by
    rw [Statement.branched, statement]
    refine agreeAt_oneArmed guard (.branch condition (branchedBody thenBody) (branchedBody elseBody) none position) _ ?_
    rw [statement, body_branchedBody thenBody, body_branchedBody elseBody, isEmpty_branchedBody]
    exact .rfl

/-- A body places the errors of every statement, so no difference is left. -/
theorem body_branchedBody : ∀ statements, body (branchedBody statements) = body statements
  | [] => by rw [branchedBody]
  | s :: rest => by
    have hs : placedAt s.position (statement s.branched) = placedAt s.position (statement s) := agreeAt_branched s
    rw [branchedBody, body, body, s.position_branched, hs, body_branchedBody rest]

end

/-- A procedure compiles the same with its guards written as branches. -/
theorem procedure_branched (p : Procedure) : procedure p.branched = procedure p := by
  rw [procedure, procedure, show p.branched.body = branchedBody p.body from rfl, body_branchedBody]
  rfl

/-- A program compiles the same with its guards written as branches. -/
theorem program_branched (table : ProcedureTable) : program table.branched = program table := by
  have h : (table.procedures.map Procedure.branched).forM (fun p => discard (procedure p)) =
      table.procedures.forM fun p => discard (procedure p) := by
    induction table.procedures with
    | nil => rfl
    | cons p rest ih =>
      show (discard (procedure p.branched) >>= fun _ => (rest.map Procedure.branched).forM fun p => discard (procedure p)) =
        discard (procedure p) >>= fun _ => rest.forM fun p => discard (procedure p)
      rw [procedure_branched, ih]
  rw [program, program, ← h]
  rfl

end Compile

/-- A guard is a branch with one body: a table and the same table with every guard written as a branch are compiled to the same
code with the same entry, procedures and data, or refused for the same error at the same position. -/
theorem ProcedureTable.compile_branched (table : ProcedureTable) (intrinsics : Intrinsics) :
    table.branched.GuardFree ∧ table.branched.compile intrinsics = table.compile intrinsics := by
  refine ⟨table.guardFree_branched, ?_⟩
  rw [compile, compile, Compile.program_branched]

/-- A guarded break is found inside a loop. -/
example (condition : Condition) (p q : Position) :
    (Statement.loop none [.action .breakLoop (some condition) p] none q).branched =
      .loop none [.branch condition [.action .breakLoop none p] [] none p] none q := by
  simp only [Statement.branched, branchedBody, Statement.oneArmed]

end RegisterCompiler
