import Mathlib
import RegisterCompiler.Compiler.Compiled
import RegisterCompiler.Machine.Host

/-!
# The meaning of programs

What a program does, told from the program alone. Registers hold 64-bit numbers that wrap around, conditions compare them as
signed numbers, and a guard that does not hold skips its statement. A procedure works on a stack of its own: it may take back only
what it has pushed and has to take back all of it before it returns. A loop's next round and a procedure's run happen later
(`Later`); `ProcedureTable.later` carries out as many of them, one inside or after another, as it is given.
-/

namespace RegisterCompiler

/-- What a run of a procedure works on: the registers, and what it has pushed, the last word first. -/
structure Scope where
  registers : Register → Int64
  stack : List Int64

/-- The scope with a register changed. -/
def Scope.set (scope : Scope) (r : Register) (v : Int64) : Scope :=
  { scope with registers := Function.update scope.registers r v }

/-- How statements are left. -/
inductive Departure where
  | normal
  | breakLoop
  | continueLoop
  | returned
  deriving DecidableEq, Repr

/-- How an execution stops. -/
inductive Stop where
  | left (way : Departure) (scope : Scope)
  /-- A division by zero, or one whose quotient does not fit. -/
  | divideFault
  /-- A pop of what the procedure has not pushed, a return before everything is popped, or no room on the stack. -/
  | stackFault
  /-- The rounds and runs it was given were too few. -/
  | unfinished

/-- What an execution prints, and how it stops. -/
structure Outcome where
  events : List Event
  stop : Stop

namespace Outcome

/-- Nothing is printed and the statements are left. -/
def leave (way : Departure) (scope : Scope) : Outcome := ⟨[], .left way scope⟩

/-- One thing is printed. -/
def print (e : Event) (scope : Scope) : Outcome := ⟨[e], .left .normal scope⟩

/-- An execution, and how it goes on where its statements are left. -/
def andThen (o : Outcome) (next : Departure → Scope → Outcome) : Outcome :=
  match o.stop with
  | .left way scope => ⟨o.events ++ (next way scope).events, (next way scope).stop⟩
  | _ => o

end Outcome

/-- The number that a value denotes. -/
def Value.eval (registers : Register → Int64) : Value → Int64
  | register r => registers r
  | immediate n => n

/-- Whether a condition is true. -/
def Condition.test (c : Condition) (registers : Register → Int64) : Bool :=
  c.comparison.holds (c.lhs.value.eval registers).toInt (c.rhs.value.eval registers).toInt

/-- Whether a condition is true, if there is one. -/
def testAll (condition : Option Condition) (registers : Register → Int64) : Bool := condition.all (·.test registers)

/-- Whether a division of two numbers has no result. -/
def divisionFails (a b : Int64) : Bool := b = 0 ∨ a = Int64.minValue ∧ b = -1

/-- The result of an operation; a quotient is rounded toward zero. -/
def Operation.result? (op : Operation) (a b : Int64) : Option Int64 :=
  match op with
  | add => some (a + b)
  | sub => some (a - b)
  | mul => some (a * b)
  | div => if divisionFails a b then none else some (a / b)
  | mod => if divisionFails a b then none else some (a % b)
  | and => some (a &&& b)
  | or => some (a ||| b)
  | xor => some (a ^^^ b)

/-- What happens later in an execution, given the number of words for which the stack has room: the rounds of a loop from some
scope on, and the run of a procedure with some registers. -/
structure Later where
  rounds : Option Condition → List Statement → Nat → Scope → Outcome
  procedure : String → Nat → (Register → Int64) → Outcome

/-- Sets a register to the result of an operation. -/
def Scope.operate (scope : Scope) (dest : Register) (op : Operation) (a b : Int64) : Outcome :=
  match op.result? a b with
  | some v => .leave .normal (scope.set dest v)
  | none => ⟨[], .divideFault⟩

/-- Carries out an action. A call takes one word of the stack for itself. -/
def Action.meaning (later : Later) (room : Nat) (a : Action) (scope : Scope) : Outcome :=
  match a with
  | .assign dest source => .leave .normal (scope.set dest (source.value.eval scope.registers))
  | .update dest op source => scope.operate dest op (scope.registers dest) (source.value.eval scope.registers)
  | .compute dest op lhs rhs =>
    scope.operate dest op (lhs.value.eval scope.registers) (rhs.value.eval scope.registers)
  | .breakLoop => .leave .breakLoop scope
  | .continueLoop => .leave .continueLoop scope
  | .returnCall => .leave .returned scope
  | .call name =>
    if scope.stack.length < room then
      (later.procedure name (room - scope.stack.length - 1) scope.registers).andThen fun _ inner =>
        .leave .normal { scope with registers := inner.registers }
    else ⟨[], .stackFault⟩
  | .print source => .print (.integer (source.value.eval scope.registers)) scope
  | .printText text => .print (.text (utf8Bytes text)) scope
  | .push r =>
    if scope.stack.length < room then .leave .normal { scope with stack := scope.registers r :: scope.stack }
    else ⟨[], .stackFault⟩
  | .pop r =>
    match scope.stack with
    | [] => ⟨[], .stackFault⟩
    | w :: rest => .leave .normal { scope.set r w with stack := rest }

/-- What becomes of a loop when a round of it is left. -/
def afterRound (rounds : Scope → Outcome) : Departure → Scope → Outcome
  | .normal, scope => rounds scope
  | .continueLoop, scope => rounds scope
  | .breakLoop, scope => .leave .normal scope
  | .returned, scope => .leave .returned scope

/-- A loop: a round if its condition is true, and the other rounds after it. -/
def loopMeaning (condition : Option Condition) (round rounds : Scope → Outcome) (scope : Scope) : Outcome :=
  if testAll condition scope.registers then (round scope).andThen (afterRound rounds) else .leave .normal scope

/-- What becomes of statements when the first one of them is left. -/
def afterStatement (rest : Scope → Outcome) : Departure → Scope → Outcome
  | .normal, scope => rest scope
  | way, scope => .leave way scope

mutual

/-- Carries out a statement behind its guard. -/
def Statement.meaning (later : Later) (room : Nat) : Statement → Scope → Outcome
  | .action a _ _, scope => a.meaning later room scope
  | .loop condition body _ _, scope =>
    loopMeaning condition (bodyMeaning later room body) (later.rounds condition body room) scope
  | .branch condition thenBody elseBody _ _, scope =>
    if condition.test scope.registers then bodyMeaning later room thenBody scope else bodyMeaning later room elseBody scope

/-- Carries out statements, each only if its guard holds. -/
def bodyMeaning (later : Later) (room : Nat) : List Statement → Scope → Outcome
  | [], scope => .leave .normal scope
  | s :: rest, scope =>
    (if testAll s.guard scope.registers then s.meaning later room scope else .leave .normal scope).andThen
      (afterStatement (bodyMeaning later room rest))

end

/-- Ends the run of a procedure, which must have popped all that it has pushed. -/
def afterProcedure (_ : Departure) (scope : Scope) : Outcome :=
  if scope.stack = [] then .leave .returned scope else ⟨[], .stackFault⟩

namespace ProcedureTable

/-- The statements of a procedure, by name; none of a procedure that does not exist. -/
def bodyOf (table : ProcedureTable) (name : String) : List Statement := (table.get? name).elim [] Procedure.body

/-- The run of a procedure, which begins with nothing pushed. -/
def procedureMeaning (table : ProcedureTable) (later : Later) (name : String) (room : Nat) (registers : Register → Int64) : Outcome :=
  (bodyMeaning later room (table.bodyOf name) ⟨registers, []⟩).andThen afterProcedure

/-- What happens later, as far as a number of rounds and runs, one inside or after another, goes. -/
def later (table : ProcedureTable) : Nat → Later
  | 0 => ⟨fun _ _ _ _ => ⟨[], .unfinished⟩, fun _ _ _ => ⟨[], .unfinished⟩⟩
  | n + 1 =>
    ⟨fun condition body room =>
        loopMeaning condition (bodyMeaning (table.later n) room body) ((table.later n).rounds condition body room),
      table.procedureMeaning (table.later n)⟩

/-- The run of a program: that of its main procedure. -/
def meaning (table : ProcedureTable) (n room : Nat) (registers : Register → Int64) : Outcome :=
  table.procedureMeaning (table.later n) Compile.mainName room registers

end ProcedureTable

end RegisterCompiler
