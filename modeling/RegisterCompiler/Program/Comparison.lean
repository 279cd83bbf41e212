/-!
# Comparisons

The six signed comparisons of conditions, which are also what a conditional jump tests. The complement of a comparison holds
exactly when it does not, and its converse holds of the operands the other way round.
-/

namespace RegisterCompiler

/-- A comparison of two signed numbers. -/
inductive Comparison where
  | less | lessEqual | greater | greaterEqual | equal | notEqual
  deriving DecidableEq, Repr

namespace Comparison

/-- Every comparison. -/
def all : List Comparison := [less, lessEqual, greater, greaterEqual, equal, notEqual]

/-- The operator of a comparison in source text. -/
def symbol : Comparison → String
  | less => "<"
  | lessEqual => "<="
  | greater => ">"
  | greaterEqual => ">="
  | equal => "=="
  | notEqual => "!="

/-- The comparison that holds exactly when this one does not. -/
def complement : Comparison → Comparison
  | less => greaterEqual
  | lessEqual => greater
  | greater => lessEqual
  | greaterEqual => less
  | equal => notEqual
  | notEqual => equal

/-- The comparison of the exchanged operands. -/
def converse : Comparison → Comparison
  | less => greater
  | lessEqual => greaterEqual
  | greater => less
  | greaterEqual => lessEqual
  | equal => equal
  | notEqual => notEqual

/-- Whether two numbers compare this way. -/
def holds (c : Comparison) (a b : Int) : Bool :=
  match c with
  | less => a < b
  | lessEqual => a ≤ b
  | greater => b < a
  | greaterEqual => b ≤ a
  | equal => a = b
  | notEqual => a ≠ b

/-- The complement holds exactly if the comparison does not. -/
theorem holds_complement (c : Comparison) (a b : Int) : c.complement.holds a b = !c.holds a b := by
  cases c <;> simp only [complement, holds, ← decide_not] <;> congr 1 <;> simp only [eq_iff_iff] <;> omega

/-- The converse holds of the exchanged operands exactly if the comparison does of the operands. -/
theorem holds_converse (c : Comparison) (a b : Int) : c.converse.holds b a = c.holds a b := by
  cases c <;> simp only [converse, holds] <;> congr 1 <;> simp only [eq_iff_iff] <;> omega

end Comparison

end RegisterCompiler
