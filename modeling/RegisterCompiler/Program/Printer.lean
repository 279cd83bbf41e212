import RegisterCompiler.Program.Tree
import RegisterCompiler.Text.Escape

/-!
# Printed programs

A program as indented lines: a header for each procedure, two spaces for each level of nesting, and a guard at the end of the
line it belongs to. An empty else-body is not shown.
-/

namespace RegisterCompiler

/-- A register's name or a decimal number. -/
def Value.text : Value → String
  | .register r => r.name
  | .immediate n => toString n.toInt

/-- The text of an operand. -/
def Operand.text (o : Operand) : String := o.value.text

/-- The text of a condition, one space around its operator. -/
def Condition.text (c : Condition) : String := c.lhs.text ++ " " ++ c.comparison.symbol ++ " " ++ c.rhs.text

/-- The text of an action, on one line. -/
def Action.text : Action → String
  | assign dest source => dest.name ++ " = " ++ source.text
  | update dest op source => dest.name ++ " " ++ op.symbol ++ "= " ++ source.text
  | compute dest op lhs rhs => dest.name ++ " = " ++ lhs.text ++ " " ++ op.symbol ++ " " ++ rhs.text
  | breakLoop => "break"
  | continueLoop => "continue"
  | returnCall => "return"
  | call procedure => "call " ++ procedure
  | print source => "<< " ++ source.text
  | printText text => "<< \"" ++ escapeText text ++ "\""
  | push r => "push " ++ r.name
  | pop r => "pop " ++ r.name

/-- A guard at the end of a line. -/
def guardText : Option Condition → String
  | none => ""
  | some c => " if " ++ c.text

/-- The first line of a loop. -/
def loopHeader : Option Condition → String
  | none => "loop"
  | some c => "loop (" ++ c.text ++ ")"

/-- The indentation of a nesting level. -/
def indentation (depth : Nat) : String := String.ofList (List.replicate (2 * depth) ' ')

/-- An indented line. -/
def indented (depth : Nat) (text : String) : String := indentation depth ++ text ++ "\n"

mutual

/-- The lines of a statement. -/
def Statement.render (depth : Nat) : Statement → String
  | .action action guard _ => indented depth (action.text ++ guardText guard)
  | .loop condition body guard _ =>
    indented depth (loopHeader condition ++ guardText guard) ++ renderBody (depth + 1) body
  | .branch condition thenBody elseBody guard _ =>
    indented depth ("branch (" ++ condition.text ++ ")" ++ guardText guard) ++ renderBody (depth + 1) thenBody ++
      (if elseBody.isEmpty then "" else indented depth "else" ++ renderBody (depth + 1) elseBody)

/-- The lines of a list of statements. -/
def renderBody (depth : Nat) : List Statement → String
  | [] => ""
  | s :: rest => s.render depth ++ renderBody depth rest

end

/-- The lines of a procedure. -/
def Procedure.render (p : Procedure) : String := "PROCEDURE " ++ p.name ++ "\n" ++ renderBody 1 p.body

/-- The lines of a program. -/
def ProcedureTable.render (t : ProcedureTable) : String := String.join (t.procedures.map Procedure.render)

end RegisterCompiler
