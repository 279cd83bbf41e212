import RegisterCompiler.Program.Comparison
import RegisterCompiler.Program.Operation
import RegisterCompiler.Program.Register
import RegisterCompiler.Source.Position

/-!
# Programs

A program is a table of procedures with pairwise different names, in the order they were declared. A procedure is a list of
statements: plain actions, loops and branches. Every statement may carry a guard, which skips it when it does not hold, and
everything knows the position it began at.
-/

namespace RegisterCompiler

/-- What an operand denotes. -/
inductive Value where
  | register (r : Register)
  | immediate (n : Int64)
  deriving DecidableEq, Repr

/-- A value in source text. -/
structure Operand where
  value : Value
  position : Position
  deriving DecidableEq, Repr

/-- A comparison of two operands. -/
structure Condition where
  lhs : Operand
  comparison : Comparison
  rhs : Operand
  position : Position
  deriving DecidableEq, Repr

/-- What a statement without a body does. -/
inductive Action where
  /-- Sets a register. -/
  | assign (dest : Register) (source : Operand)
  /-- Combines a register with an operand, in place. -/
  | update (dest : Register) (op : Operation) (source : Operand)
  /-- Sets a register to a combination of two operands. -/
  | compute (dest : Register) (op : Operation) (lhs rhs : Operand)
  /-- Leaves the innermost loop. -/
  | breakLoop
  /-- Goes on with the next round of the innermost loop. -/
  | continueLoop
  /-- Leaves the procedure. -/
  | returnCall
  /-- Runs another procedure. -/
  | call (procedure : String)
  /-- Prints an operand as a decimal number. -/
  | print (source : Operand)
  /-- Prints a text. -/
  | printText (text : String)
  | push (r : Register)
  | pop (r : Register)
  deriving DecidableEq, Repr

/-- A statement. A loop without a condition ends only from inside. -/
inductive Statement where
  | action (action : Action) (guard : Option Condition) (position : Position)
  | loop (condition : Option Condition) (body : List Statement) (guard : Option Condition) (position : Position)
  | branch (condition : Condition) (thenBody elseBody : List Statement) (guard : Option Condition) (position : Position)
  deriving Repr

namespace Statement

/-- The guard of a statement. -/
def guard : Statement → Option Condition
  | action _ guard _ => guard
  | loop _ _ guard _ => guard
  | branch _ _ _ guard _ => guard

/-- Where a statement begins. -/
def position : Statement → Position
  | action _ _ position => position
  | loop _ _ _ position => position
  | branch _ _ _ _ position => position

end Statement

/-- A named list of statements; its position is that of its name. -/
structure Procedure where
  name : String
  body : List Statement
  position : Position
  deriving Repr

/-- Procedures in declaration order, no two of one name. -/
structure ProcedureTable where
  procedures : List Procedure := []
  names_nodup : (procedures.map Procedure.name).Nodup := by simp

namespace ProcedureTable

/-- The table without procedures. -/
def empty : ProcedureTable := {}

/-- The names in a table, in order. -/
def names (t : ProcedureTable) : List String := t.procedures.map Procedure.name

/-- The procedure of a name. -/
def get? (t : ProcedureTable) (name : String) : Option Procedure := t.procedures.find? fun p => p.name == name

/-- Whether a table has a procedure of a name. -/
def contains (t : ProcedureTable) (name : String) : Bool := (t.get? name).isSome

/-- The number of procedures. -/
def size (t : ProcedureTable) : Nat := t.procedures.length

/-- Whether a table has no procedure. -/
def isEmpty (t : ProcedureTable) : Bool := t.procedures.isEmpty

/-- A procedure is missing from a table exactly if its name is not among the names. -/
theorem contains_eq_false_iff (t : ProcedureTable) (name : String) : t.contains name = false ↔ name ∉ t.names := by
  simp only [contains, get?, names, List.isSome_find?, List.any_eq_false, beq_iff_eq, List.mem_map, not_exists, not_and]

/-- The table with one more procedure; the procedure itself if its name is taken. -/
def insert (t : ProcedureTable) (p : Procedure) : Except Procedure ProcedureTable :=
  if h : t.contains p.name = false then
    .ok ⟨t.procedures ++ [p], by
      have hn := (contains_eq_false_iff t p.name).1 h
      simp only [List.map_append, List.map_cons, List.map_nil, List.nodup_append]
      refine ⟨t.names_nodup, by simp, ?_⟩
      intro a ha b hb
      simp only [List.mem_singleton] at hb
      rintro rfl
      exact hn (hb ▸ ha)⟩
  else .error p

end ProcedureTable

end RegisterCompiler
