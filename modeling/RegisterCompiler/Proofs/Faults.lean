import Mathlib
import RegisterCompiler.Compiler.Compiled

/-!
# Faults of a program

What the compiler finds wrong with a program, read off the program alone and in the order in which the compiler comes upon it:
a statement that has no code and a condition on two immediates where they stand, a jump that belongs to no loop at the end of its
procedure, and a call of a procedure that does not exist at the end of the program.
-/

namespace RegisterCompiler

/-! ## Faults inside a procedure -/

/-- Whether both operands of a condition are immediates. -/
def Condition.bothImmediate (c : Condition) : Bool :=
  match c.lhs.value, c.rhs.value with
  | .immediate _, .immediate _ => true
  | _, _ => false

/-- The fault of a condition. -/
def Condition.faults (c : Condition) : List CompileError :=
  if c.bothImmediate then [⟨.unsupportedComparison, c.position⟩] else []

/-- The fault of a condition, if there is one. -/
def conditionFaults : Option Condition → List CompileError
  | none => []
  | some c => c.faults

/-- The fault of an action: a combination of two operands has no code. -/
def Action.faults (position : Position) : Action → List CompileError
  | .compute _ _ _ _ => [⟨.unimplemented, position⟩]
  | _ => []

mutual

/-- The faults of a statement behind its guard: those of its own condition, of its body and of its second body. -/
def Statement.coreFaults : Statement → List CompileError
  | .action a _ position => a.faults position
  | .loop condition body _ _ => conditionFaults condition ++ bodyFaults body
  | .branch condition thenBody elseBody _ _ => condition.faults ++ bodyFaults thenBody ++ bodyFaults elseBody

/-- The faults of statements, each after that of its guard. -/
def bodyFaults : List Statement → List CompileError
  | [] => []
  | s :: rest => conditionFaults s.guard ++ s.coreFaults ++ bodyFaults rest

end

/-! ## Jumps outside loops and calls -/

mutual

/-- Where an action stands in a statement outside the loops in it. -/
def Statement.outsideLoops (a : Action) : Statement → List Position
  | .action b _ position => if b = a then [position] else []
  | .loop _ _ _ _ => []
  | .branch _ thenBody elseBody _ _ => outsideLoops a thenBody ++ outsideLoops a elseBody

/-- Where an action stands in statements outside the loops in them. -/
def outsideLoops (a : Action) : List Statement → List Position
  | [] => []
  | s :: rest => s.outsideLoops a ++ outsideLoops a rest

end

mutual

/-- The names that a statement calls. -/
def Statement.calls : Statement → List String
  | .action (.call name) _ _ => [name]
  | .action _ _ _ => []
  | .loop _ body _ _ => bodyCalls body
  | .branch _ thenBody elseBody _ _ => bodyCalls thenBody ++ bodyCalls elseBody

/-- The names that statements call, in order. -/
def bodyCalls : List Statement → List String
  | [] => []
  | s :: rest => s.calls ++ bodyCalls rest

end

/-- Where a procedure jumps out of a loop, or to the next round of one, outside every loop: the former before the latter. -/
def Procedure.strays (p : Procedure) : List Position :=
  outsideLoops .breakLoop p.body ++ outsideLoops .continueLoop p.body

/-- The position of the smallest offset, the first one of several. -/
def earliest? : List Position → Option Position
  | [] => none
  | p :: rest => some (rest.foldl Position.earlier p)

/-- The faults of a procedure: those inside it, and at its end the earliest jump that belongs to no loop. -/
def Procedure.faults (p : Procedure) : List CompileError :=
  bodyFaults p.body ++ ((earliest? p.strays).map fun position => ⟨.strayLoopControl, position⟩).toList

namespace ProcedureTable

/-- The names that a program calls, in order, the host's call at the end. -/
def calls (table : ProcedureTable) : List String :=
  table.procedures.flatMap (fun p => bodyCalls p.body) ++ [Compile.mainName]

/-- The fault of a call: that its procedure does not exist. -/
def callFaults (table : ProcedureTable) (name : String) : List CompileError :=
  if name ∈ table.names then [] else [⟨.undefinedProcedure name, Position.unknown⟩]

/-- The faults of a program: those of its procedures, then those of its calls. -/
def faults (table : ProcedureTable) : List CompileError :=
  table.procedures.flatMap Procedure.faults ++ table.calls.flatMap table.callFaults

end ProcedureTable

/-! ## Sound programs -/

mutual

/-- A statement and the statements in it, from the outside in. -/
def Statement.parts : Statement → List Statement
  | .action a guard position => [.action a guard position]
  | .loop condition body guard position => .loop condition body guard position :: bodyParts body
  | .branch condition thenBody elseBody guard position =>
    .branch condition thenBody elseBody guard position :: (bodyParts thenBody ++ bodyParts elseBody)

/-- The statements in a body, in order. -/
def bodyParts : List Statement → List Statement
  | [] => []
  | s :: rest => s.parts ++ bodyParts rest

end

namespace Statement

/-- The conditions of a statement itself: its guard and its own. -/
def conditions : Statement → List Condition
  | action _ guard _ => guard.toList
  | loop condition _ guard _ => guard.toList ++ condition.toList
  | branch condition _ _ guard _ => guard.toList ++ [condition]

/-- Whether a statement combines two operands. -/
def isLonghand : Statement → Bool
  | action (.compute _ _ _ _) _ _ => true
  | _ => false

/-- The faults of a statement itself. -/
def ownFaults (s : Statement) : List CompileError :=
  s.conditions.flatMap Condition.faults ++ if s.isLonghand then [⟨.unimplemented, s.position⟩] else []

end Statement

/-- A procedure in which every statement has code, every condition compares a register, and every jump belongs to a loop. -/
structure Procedure.Sound (p : Procedure) : Prop where
  written : ∀ s ∈ bodyParts p.body, s.isLonghand = false
  compared : ∀ s ∈ bodyParts p.body, ∀ c ∈ s.conditions, c.bothImmediate = false
  inside : outsideLoops .breakLoop p.body = [] ∧ outsideLoops .continueLoop p.body = []

/-- A program of sound procedures that has every procedure it calls, and the one that the host calls. -/
structure ProcedureTable.Sound (table : ProcedureTable) : Prop where
  procedures : ∀ p ∈ table.procedures, p.Sound
  calls : ∀ p ∈ table.procedures, ∀ name ∈ bodyCalls p.body, name ∈ table.names
  main : Compile.mainName ∈ table.names

/-! ## The first fault -/

/-- A position has the smallest offset of several, and none before it has the same. -/
def Earliest (position : Position) (positions : List Position) : Prop :=
  ∃ before behind, positions = before ++ position :: behind ∧ (∀ q ∈ before, position.offset < q.offset) ∧
    ∀ q ∈ behind, position.offset ≤ q.offset

/-- A procedure's error: its first statement without code or condition on two immediates, and in a procedure without these its
earliest jump outside every loop. -/
def Procedure.RejectedWith (p : Procedure) (e : CompileError) : Prop :=
  (bodyFaults p.body).head? = some e ∨
    bodyFaults p.body = [] ∧ ∃ position, Earliest position p.strays ∧ e = ⟨.strayLoopControl, position⟩

/-- A program's error: that of its first procedure that is not sound, and in a program of sound procedures its first call of a
procedure that does not exist. -/
def ProcedureTable.RejectedWith (table : ProcedureTable) (e : CompileError) : Prop :=
  (∃ before p behind, table.procedures = before ++ p :: behind ∧ (∀ q ∈ before, q.Sound) ∧ p.RejectedWith e) ∨
    (∀ p ∈ table.procedures, p.Sound) ∧ ∃ before name behind, table.calls = before ++ name :: behind ∧
      (∀ other ∈ before, other ∈ table.names) ∧ name ∉ table.names ∧ e = ⟨.undefinedProcedure name, Position.unknown⟩

/-! ## Faults and soundness -/

/-- A condition is at fault exactly if it compares two immediates. -/
theorem Condition.faults_eq_nil_iff (c : Condition) : c.faults = [] ↔ c.bothImmediate = false := by
  unfold faults
  split <;> simp_all

/-- A condition that may be left out is at fault as the condition is. -/
theorem conditionFaults_eq_flatMap (condition : Option Condition) :
    conditionFaults condition = condition.toList.flatMap Condition.faults := by
  cases condition <;> simp [conditionFaults]

mutual

/-- The faults of a statement are those of its parts, in order. -/
theorem Statement.faults_eq_flatMap (s : Statement) :
    conditionFaults s.guard ++ s.coreFaults = s.parts.flatMap Statement.ownFaults := by
  cases s with
  | action a guard position =>
    cases a <;> simp [Statement.guard, Statement.coreFaults, Statement.parts, Statement.ownFaults, Statement.conditions,
      Statement.isLonghand, Statement.position, Action.faults, conditionFaults_eq_flatMap]
  | loop condition body guard position =>
    simp [Statement.guard, Statement.coreFaults, Statement.parts, Statement.ownFaults, Statement.conditions,
      Statement.isLonghand, conditionFaults_eq_flatMap, bodyFaults_eq_flatMap body]
  | branch condition thenBody elseBody guard position =>
    simp [Statement.guard, Statement.coreFaults, Statement.parts, Statement.ownFaults, Statement.conditions,
      Statement.isLonghand, conditionFaults_eq_flatMap, bodyFaults_eq_flatMap thenBody, bodyFaults_eq_flatMap elseBody]

/-- The faults of a body are those of the statements in it, in order. -/
theorem bodyFaults_eq_flatMap (body : List Statement) : bodyFaults body = (bodyParts body).flatMap Statement.ownFaults := by
  cases body with
  | nil => rfl
  | cons s rest => simp [bodyFaults, bodyParts, Statement.faults_eq_flatMap s, bodyFaults_eq_flatMap rest]

end

/-- A body is without fault exactly if no part of it is a longhand or tests two immediates. -/
theorem bodyFaults_eq_nil_iff (body : List Statement) :
    bodyFaults body = [] ↔ (∀ s ∈ bodyParts body, s.isLonghand = false) ∧
      ∀ s ∈ bodyParts body, ∀ c ∈ s.conditions, c.bothImmediate = false := by
  have hown : ∀ s : Statement, s.ownFaults = [] ↔ s.isLonghand = false ∧ ∀ c ∈ s.conditions, c.bothImmediate = false := by
    intro s
    rw [Statement.ownFaults, List.append_eq_nil_iff, List.flatMap_eq_nil_iff]
    simp only [Condition.faults_eq_nil_iff]
    cases s.isLonghand <;> simp
  rw [bodyFaults_eq_flatMap, List.flatMap_eq_nil_iff]
  simp only [hown]
  exact ⟨fun h => ⟨fun s hs => (h s hs).1, fun s hs => (h s hs).2⟩, fun h s hs => ⟨h.1 s hs, h.2 s hs⟩⟩

/-! ## The earliest position -/

/-- The earlier one of all positions, taken one by one, is the earliest. -/
theorem earliest_foldl (p : Position) (rest : List Position) : Earliest (rest.foldl Position.earlier p) (p :: rest) := by
  induction rest generalizing p with
  | nil => exact ⟨[], [], rfl, nofun, nofun⟩
  | cons q rest ih =>
    obtain ⟨before, behind, hall, hbefore, hbehind⟩ := ih (p.earlier q)
    rw [List.foldl_cons]
    generalize rest.foldl Position.earlier (p.earlier q) = m at hall hbefore hbehind ⊢
    unfold Position.earlier at hall
    -- whether the second position takes the place of the first decides what stands before the result
    split at hall
    · rename_i hless
      have hm : m.offset ≤ q.offset := by
        cases before with
        | nil => exact Nat.le_of_eq (congrArg Position.offset (List.cons.inj hall).1).symm
        | cons b before =>
          have := hbefore b (.head _)
          rw [← (List.cons.inj hall).1] at this
          exact Nat.le_of_lt this
      refine ⟨p :: before, behind, by rw [hall]; rfl, ?_, hbehind⟩
      intro r hr
      rcases List.mem_cons.1 hr with rfl | hr
      · exact Nat.lt_of_le_of_lt hm hless
      · exact hbefore r hr
    · rename_i hle
      cases before with
      | nil =>
        obtain ⟨rfl, rfl⟩ := List.cons.inj hall
        refine ⟨[], q :: rest, rfl, nofun, ?_⟩
        intro r hr
        rcases List.mem_cons.1 hr with rfl | hr
        · exact Nat.le_of_not_lt hle
        · exact hbehind r hr
      | cons b before =>
        obtain ⟨rfl, rfl⟩ := List.cons.inj hall
        have hp := hbefore p (.head _)
        refine ⟨p :: q :: before, behind, rfl, ?_, hbehind⟩
        intro r hr
        rcases List.mem_cons.1 hr with rfl | hr
        · exact hp
        rcases List.mem_cons.1 hr with rfl | hr
        · omega
        · exact hbefore r (.tail _ hr)

/-- There is one earliest position. -/
theorem Earliest.unique {p q : Position} {positions : List Position} (hp : Earliest p positions) (hq : Earliest q positions) :
    p = q := by
  obtain ⟨before, behind, rfl, hbefore, hbehind⟩ := hp
  obtain ⟨before', behind', hall, hbefore', hbehind'⟩ := hq
  rcases List.append_eq_append_iff.1 hall with ⟨middle, rfl, h⟩ | ⟨middle, rfl, h⟩
  · cases middle with
    | nil => exact (List.cons.inj h).1
    | cons m middle =>
      obtain ⟨rfl, rfl⟩ := List.cons.inj h
      have := hbefore' p (by simp)
      have := hbehind q (by simp)
      omega
  · cases middle with
    | nil => exact (List.cons.inj h).1.symm
    | cons m middle =>
      obtain ⟨rfl, rfl⟩ := List.cons.inj h
      have := hbefore q (by simp)
      have := hbehind' p (by simp)
      omega

/-- The position that is found is the earliest one. -/
theorem earliest?_eq_some_iff (positions : List Position) (p : Position) : earliest? positions = some p ↔ Earliest p positions := by
  cases positions with
  | nil => simp [earliest?, Earliest]
  | cons q rest =>
    rw [earliest?, Option.some.injEq]
    exact ⟨fun h => h ▸ earliest_foldl q rest, (earliest_foldl q rest).unique⟩

/-- None is found exactly among none. -/
theorem earliest?_eq_none_iff (positions : List Position) : earliest? positions = none ↔ positions = [] := by
  cases positions <;> simp [earliest?]

/-! ## The first fault of a list of lists -/

/-- The first of all results is the first one of the first element that has any. -/
theorem head?_flatMap_eq_some_iff {α β : Type} (f : α → List β) (l : List α) (b : β) :
    (l.flatMap f).head? = some b ↔
      ∃ before a behind, l = before ++ a :: behind ∧ (∀ x ∈ before, f x = []) ∧ (f a).head? = some b := by
  induction l with
  | nil => simp
  | cons x rest ih =>
    rw [List.flatMap_cons, List.head?_append]
    cases hx : f x with
    | nil =>
      rw [List.head?_nil, Option.none_or, ih]
      constructor
      · rintro ⟨before, a, behind, rfl, hbefore, ha⟩
        exact ⟨x :: before, a, behind, rfl, by simpa [hx] using hbefore, ha⟩
      · rintro ⟨before, a, behind, hall, hbefore, ha⟩
        cases before with
        | nil =>
          obtain ⟨rfl, rfl⟩ := List.cons.inj hall
          rw [hx] at ha
          cases ha
        | cons y before =>
          obtain ⟨rfl, rfl⟩ := List.cons.inj hall
          exact ⟨before, a, behind, rfl, fun z hz => hbefore z (.tail _ hz), ha⟩
    | cons y ys =>
      rw [List.head?_cons, Option.some_or]
      constructor
      · rintro h
        exact ⟨[], x, rest, rfl, nofun, by rw [hx]; exact h⟩
      · rintro ⟨before, a, behind, hall, hbefore, ha⟩
        cases before with
        | nil =>
          obtain ⟨rfl, rfl⟩ := List.cons.inj hall
          rw [hx] at ha
          exact ha
        | cons z before =>
          obtain ⟨rfl, rfl⟩ := List.cons.inj hall
          rw [hbefore x (.head _)] at hx
          cases hx

/-! ## Faults as soundness -/

/-- A procedure is without fault exactly if it is sound. -/
theorem Procedure.faults_eq_nil_iff (p : Procedure) : p.faults = [] ↔ p.Sound := by
  rw [faults, List.append_eq_nil_iff, bodyFaults_eq_nil_iff]
  simp only [Option.toList_eq_nil_iff, Option.map_eq_none_iff, earliest?_eq_none_iff, strays, List.append_eq_nil_iff]
  exact ⟨fun h => ⟨h.1.1, h.1.2, h.2⟩, fun h => ⟨⟨h.written, h.compared⟩, h.inside⟩⟩

/-- The first fault of a procedure is the one that it is rejected with. -/
theorem Procedure.head?_faults_eq_some_iff (p : Procedure) (e : CompileError) : p.faults.head? = some e ↔ p.RejectedWith e := by
  rw [faults, List.head?_append, RejectedWith]
  cases bodyFaults p.body with
  | cons first rest => simp
  | nil =>
    rw [List.head?_nil, Option.none_or]
    cases h : earliest? p.strays with
    | none =>
      have hnone : ∀ position, ¬Earliest position p.strays := by
        intro position hp
        rw [← earliest?_eq_some_iff, h] at hp
        cases hp
      simp [hnone]
    | some position =>
      have hsome : ∀ q, Earliest q p.strays ↔ q = position := by
        intro q
        rw [← earliest?_eq_some_iff, h, Option.some.injEq, eq_comm]
      simp [hsome, eq_comm]

/-- A call is without fault exactly if the table has a procedure of the name. -/
theorem ProcedureTable.callFaults_eq_nil_iff (table : ProcedureTable) (name : String) :
    table.callFaults name = [] ↔ name ∈ table.names := by
  unfold callFaults
  split <;> simp_all

/-- A table is without fault exactly if it is sound. -/
theorem ProcedureTable.faults_eq_nil_iff (table : ProcedureTable) : table.faults = [] ↔ table.Sound := by
  rw [faults, calls, List.append_eq_nil_iff, List.flatMap_eq_nil_iff, List.flatMap_eq_nil_iff]
  simp only [Procedure.faults_eq_nil_iff, callFaults_eq_nil_iff, List.mem_append, List.mem_flatMap, List.mem_singleton]
  constructor
  · rintro ⟨hsound, hcalls⟩
    exact ⟨hsound, fun p hp name hname => hcalls name (Or.inl ⟨p, hp, hname⟩), hcalls _ (Or.inr rfl)⟩
  · rintro ⟨hsound, hcalls, hmain⟩
    refine ⟨hsound, ?_⟩
    rintro name (⟨p, hp, hname⟩ | rfl)
    · exact hcalls p hp name hname
    · exact hmain

/-- The first fault of a table is the one that it is rejected with. -/
theorem ProcedureTable.head?_faults_eq_some_iff (table : ProcedureTable) (e : CompileError) :
    table.faults.head? = some e ↔ table.RejectedWith e := by
  have hprocedures := head?_flatMap_eq_some_iff Procedure.faults table.procedures e
  have hcalls := head?_flatMap_eq_some_iff table.callFaults table.calls e
  simp only [Procedure.faults_eq_nil_iff, Procedure.head?_faults_eq_some_iff, callFaults_eq_nil_iff] at hprocedures hcalls
  have hname : ∀ name, (table.callFaults name).head? = some e ↔
      name ∉ table.names ∧ e = ⟨.undefinedProcedure name, Position.unknown⟩ := by
    intro name
    unfold callFaults
    split <;> simp_all [eq_comm]
  rw [faults, RejectedWith, List.head?_append, ← hprocedures]
  simp only [hname] at hcalls
  cases hfaults : table.procedures.flatMap Procedure.faults with
  | cons first rest =>
    have hunsound : ¬∀ p ∈ table.procedures, p.Sound := by
      intro hsound
      rw [List.flatMap_eq_nil_iff.2 fun p hp => (Procedure.faults_eq_nil_iff p).2 (hsound p hp)] at hfaults
      cases hfaults
    simp [hunsound]
  | nil =>
    have hsound : ∀ p ∈ table.procedures, p.Sound := fun p hp =>
      (Procedure.faults_eq_nil_iff p).1 (List.flatMap_eq_nil_iff.1 hfaults p hp)
    rw [List.head?_nil, Option.none_or, hcalls]
    constructor
    · rintro ⟨before, name, behind, h⟩
      exact Or.inr ⟨hsound, before, name, behind, h⟩
    · rintro (h | ⟨_, h⟩)
      · cases h
      · exact h

end RegisterCompiler
