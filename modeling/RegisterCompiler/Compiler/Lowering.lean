import RegisterCompiler.Compiler.Error

/-!
# Code of conditions and actions

The instruction sequences of the parts of a program that need no later repair: compares, assignments, updates and calls of the
host. A compare takes its register operand first, so in a condition with an immediate on the left the operands are exchanged and
the comparison becomes its converse.
-/

namespace RegisterCompiler

open X64 (Reg Sequence)

/-- The addresses of the host functions that print. -/
structure Intrinsics where
  printInteger : UInt64
  printText : UInt64
  deriving DecidableEq, Repr

/-- The compare of a condition, and the comparison that then holds of the flags exactly when the condition is true. -/
def Condition.compare (c : Condition) : Except CompileError (Sequence × Comparison) :=
  match c.lhs.value, c.rhs.value with
  | .register a, .register b => .ok ([.alu .cmp a.hardware b.hardware], c.comparison)
  | .register a, .immediate n => .ok (X64.aluImmediate .cmp a.hardware n, c.comparison)
  | .immediate n, .register b =>
    let (sequence, exchanged) := X64.compareImmediate n b.hardware false
    .ok (sequence, if exchanged then c.comparison.converse else c.comparison)
  | .immediate _, .immediate _ => .error ⟨.unsupportedComparison, c.position⟩

/-- Sets a register. -/
def moveValue (dest : Reg) : Value → X64.Instruction
  | .register source => .move dest source.hardware
  | .immediate n => .moveImmediate dest n

/-- A value as a divisor. -/
def Value.divisor : Value → X64.Divisor
  | register r => .register r.hardware
  | immediate n => .immediate n

/-- Multiplies a register by a value. -/
def multiplyBy (dest : Reg) : Value → Sequence
  | .register source => [.multiply dest source.hardware]
  | .immediate n => X64.multiplyImmediate dest n

/-- Combines a register with a value by an operation on flags. -/
def combine (op : X64.Alu) (dest : Reg) : Value → Sequence
  | .register source => [.alu op dest source.hardware]
  | .immediate n => X64.aluImmediate op dest n

/-- Combines a register with a value, in place. -/
def updateRegister (dest : Reg) (op : Operation) (value : Value) : Sequence :=
  match op with
  | .add => combine .add dest value
  | .sub => combine .sub dest value
  | .and => combine .and dest value
  | .or => combine .or dest value
  | .xor => combine .xor dest value
  | .mul => multiplyBy dest value
  | .div => X64.divideBy dest value.divisor .quotient
  | .mod => X64.divideBy dest value.divisor .remainder

/-- The start of a host call: saves every register and puts the function's address into the given one. -/
def enterHost (function : UInt64) (via : Reg) : Sequence := X64.pushAll ++ [.moveImmediate via function.toInt64]

/-- The end of a host call: aligns the stack, calls through the given register and restores every register. -/
def leaveHost (via : Reg) : Sequence :=
  [.move .rbp .rsp, .aluImmediate .and .rsp (-16), .callRegister via, .move .rsp .rbp] ++ X64.popAll

/-- The register that holds the host function's address while an operand is printed: one that the operand is not in. -/
def printRegister : Value → Reg
  | .register .rax => .rbx
  | _ => .rax

/-- Puts the printed operand where the host function expects it. -/
def printArgument : Value → Sequence
  | .register .rdi => []
  | value => [moveValue .rdi value]

/-- Prints an operand as a number. -/
def printValue (intrinsics : Intrinsics) (value : Value) : Sequence :=
  enterHost intrinsics.printInteger (printRegister value) ++ printArgument value ++ leaveHost (printRegister value)

end RegisterCompiler
