import RegisterCompiler.Program.Comparison

/-!
# Condition codes

The sixteen conditions a conditional jump can test, and the six of them that are signed comparisons.
-/

namespace RegisterCompiler.X64

/-- What a conditional jump tests. -/
inductive ConditionCode where
  | overflow | notOverflow | below | aboveEqual | equal | notEqual | belowEqual | above
  | sign | notSign | parity | notParity | less | greaterEqual | lessEqual | greater
  deriving DecidableEq, Repr

namespace ConditionCode

/-- The four-bit number of a condition: its place among the sixteen. -/
def number (c : ConditionCode) : Fin 16 := ⟨c.ctorIdx, by cases c <;> decide⟩

/-- Every condition, by number. -/
def all : List ConditionCode :=
  [overflow, notOverflow, below, aboveEqual, equal, notEqual, belowEqual, above, sign, notSign, parity, notParity, less,
    greaterEqual, lessEqual, greater]

/-- The condition with a number. -/
def ofNumber (n : Fin 16) : ConditionCode := all.get (n.cast rfl)

/-- The name of the jump that tests a condition. -/
def mnemonic : ConditionCode → String
  | overflow => "jo"
  | notOverflow => "jno"
  | below => "jb"
  | aboveEqual => "jae"
  | equal => "je"
  | notEqual => "jne"
  | belowEqual => "jbe"
  | above => "ja"
  | sign => "js"
  | notSign => "jns"
  | parity => "jp"
  | notParity => "jnp"
  | less => "jl"
  | greaterEqual => "jge"
  | lessEqual => "jle"
  | greater => "jg"

/-- A condition is the one with its number. -/
theorem ofNumber_number (c : ConditionCode) : ofNumber c.number = c := by cases c <;> rfl

end ConditionCode

end RegisterCompiler.X64

namespace RegisterCompiler

/-- The condition that holds behind a compare exactly when the comparison holds of its operands. -/
def Comparison.code : Comparison → X64.ConditionCode
  | less => .less
  | lessEqual => .lessEqual
  | greater => .greater
  | greaterEqual => .greaterEqual
  | equal => .equal
  | notEqual => .notEqual

end RegisterCompiler
