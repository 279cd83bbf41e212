/-!
# Double-precision values

Non-negative binary64 values as `mantissa · 2 ^ exponent`, and the value nearest to a decimal fraction. A fraction half way
between two values goes to the one with the even mantissa; a fraction past the largest value becomes infinite.
-/

namespace RegisterCompiler

/-- A non-negative binary64 value. -/
inductive Binary64 where
  | finite (mantissa : Nat) (exponent : Int)
  | infinite
  deriving DecidableEq, Repr

namespace Binary64

/-- The exponent of the smallest positive value. -/
def leastExponent : Int := -1074

/-- The exponent of the largest finite value. -/
def greatestExponent : Int := 971

/-- The number of bits of a full mantissa. -/
def precision : Nat := 53

/-- The fraction `num / den` divided by `2 ^ exponent`, as numerator and denominator. -/
def scaled (num den : Nat) (exponent : Int) : Nat × Nat :=
  (num <<< (-exponent).toNat, den <<< exponent.toNat)

/-- The natural number nearest to `num / den`, ties to the even neighbour. -/
def roundHalfEven (num den : Nat) : Nat :=
  let low := num / den
  let twice := 2 * (num % den)
  if twice < den then low
  else if den < twice then low + 1
  else if low % 2 = 0 then low else low + 1

/-- The exponent of the highest bit of a positive fraction. -/
def highestBit (num den : Nat) : Int :=
  let guess : Int := (num.log2 : Int) - den.log2
  let (n, d) := scaled num den guess
  if d ≤ n then guess else guess - 1

/-- The binary64 value nearest to the fraction `num / den`. -/
def nearest (num den : Nat) : Binary64 :=
  if num = 0 then .finite 0 leastExponent
  else
    let exponent := max (highestBit num den - (precision - 1 : Nat)) leastExponent
    let (n, d) := scaled num den exponent
    let mantissa := roundHalfEven n d
    let (mantissa, exponent) :=
      if mantissa = 1 <<< precision then (1 <<< (precision - 1), exponent + 1) else (mantissa, exponent)
    if greatestExponent < exponent then .infinite else .finite mantissa exponent

end Binary64

end RegisterCompiler
