import RegisterCompiler.Program.Tree
import RegisterCompiler.X64.Assembler

/-!
# Compile errors

Why a program cannot be compiled, and where in its source. Errors of the assembler arise without a position and take that of
the statement they arose in.
-/

namespace RegisterCompiler

/-- Why a program cannot be compiled. -/
inductive CompileFault where
  /-- A condition on two immediates. -/
  | unsupportedComparison
  /-- A statement that has no code yet. -/
  | unimplemented
  /-- A break or continue outside a loop. -/
  | strayLoopControl
  /-- A call of a procedure that is not there. -/
  | undefinedProcedure (name : String)
  | assembly (e : X64.AssemblyError)
  deriving DecidableEq, Repr

/-- The text of a compile fault. -/
def CompileFault.message : CompileFault → String
  | unsupportedComparison => "Unsupported comparison operand type combination."
  | unimplemented => "Statement not implemented in the compiler."
  | strayLoopControl => "break or continue outside a loop."
  | undefinedProcedure name => "Calling procedure \"" ++ name ++ "\", which doesn't exist."
  | assembly e => e.message

/-- A fault and where it is. -/
structure CompileError where
  fault : CompileFault
  position : Position
  deriving DecidableEq, Repr

namespace CompileError

/-- The text of a compile error. -/
def text (e : CompileError) : String := e.fault.message ++ " at " ++ e.position.text

/-- An assembler's error, which has no position of its own. -/
def ofAssembly (e : X64.AssemblyError) : CompileError := ⟨.assembly e, Position.unknown⟩

/-- An assembler's error without a position, placed at the given one; any other error as it is. -/
def placedAt (position : Position) (e : CompileError) : CompileError :=
  match e.fault with
  | .assembly _ => if e.position = Position.unknown then { e with position := position } else e
  | _ => e

end CompileError

end RegisterCompiler
