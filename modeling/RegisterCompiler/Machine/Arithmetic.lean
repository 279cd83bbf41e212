import RegisterCompiler.Machine.State
import RegisterCompiler.X64.Instruction

/-!
# Arithmetic and flags

The results of the processor's operations on 64-bit words and the flags they leave, and when a condition holds of the flags.
-/

namespace RegisterCompiler.Machine

open X64 (Alu ConditionCode)

/-- A word as a signed number. -/
def signed (w : UInt64) : Int := w.toInt64.toInt

/-- Whether the number of set bits in the low byte is even. -/
def evenParity (w : UInt64) : Bool :=
  ((List.range 8).countP fun i => (w >>> UInt64.ofNat i) &&& 1 == 1) % 2 == 0

/-- The flags that only a result decides, with the given carry and overflow. -/
def resultFlags (carry overflow : Bool) (result : UInt64) : Flags :=
  ⟨carry, evenParity result, result == 0, signed result < 0, overflow⟩

/-- The result of an operation; a compare subtracts. -/
def aluResult (op : Alu) (a b : UInt64) : UInt64 :=
  match op with
  | .add => a + b
  | .or => a ||| b
  | .and => a &&& b
  | .sub => a - b
  | .xor => a ^^^ b
  | .cmp => a - b

/-- The flags of an operation: a carry out of, or an overflow of, the 64 bits for sums and differences. -/
def aluFlags (op : Alu) (a b : UInt64) : Flags :=
  let result := aluResult op a b
  match op with
  | .add => resultFlags (result < a) (signed a + signed b != signed result) result
  | .sub => resultFlags (a < b) (signed a - signed b != signed result) result
  | .cmp => resultFlags (a < b) (signed a - signed b != signed result) result
  | .or => resultFlags false false result
  | .and => resultFlags false false result
  | .xor => resultFlags false false result

/-- Whether a condition holds. -/
def holds (c : ConditionCode) (f : Flags) : Bool :=
  match c with
  | .overflow => f.overflow
  | .notOverflow => !f.overflow
  | .below => f.carry
  | .aboveEqual => !f.carry
  | .equal => f.zero
  | .notEqual => !f.zero
  | .belowEqual => f.carry || f.zero
  | .above => !(f.carry || f.zero)
  | .sign => f.sign
  | .notSign => !f.sign
  | .parity => f.parity
  | .notParity => !f.parity
  | .less => f.sign != f.overflow
  | .greaterEqual => f.sign == f.overflow
  | .lessEqual => f.zero || f.sign != f.overflow
  | .greater => !f.zero && f.sign == f.overflow

/-- Quotient and remainder of the signed 128-bit number of two words by a word, rounded toward zero; none if the divisor is
zero or the quotient does not fit a word. -/
def divide? (high low divisor : UInt64) : Option (UInt64 × UInt64) :=
  let dividend := signed high * UInt64.size + low.toNat
  let d := signed divisor
  let quotient := dividend.tdiv d
  if d = 0 ∨ quotient < Int64.minValue.toInt ∨ Int64.maxValue.toInt < quotient then none
  else some ((Int64.ofInt quotient).toUInt64, (Int64.ofInt (dividend.tmod d)).toUInt64)

/-- A word of all sign bits of another. -/
def signWord (w : UInt64) : UInt64 := if signed w < 0 then 0xFFFFFFFFFFFFFFFF else 0

/-- A signed 32-bit number as a word. -/
def wordOfInt32 (n : Int32) : UInt64 := n.toInt64.toUInt64

end RegisterCompiler.Machine
