import RegisterCompiler.Number.Binary64

/-!
# Shortest decimal text

The text of a binary64 value: the fewest decimal digits that read back as the same value, of two such the nearer one, and of
two equally near the larger. The text never has an exponent, and a whole number has no decimal point.
-/

namespace RegisterCompiler

namespace Binary64

/-- A decimal `digits · 10 ^ exponent`. -/
structure Decimal where
  digits : Nat
  exponent : Int
  deriving DecidableEq, Repr

/-- The number of digits before the decimal point of `num / den`; zero or negative for a fraction below one tenth. -/
def wholeDigits (num den : Nat) : Int :=
  if den ≤ num then ((Nat.toDigits 10 (num / den)).length : Int)
  else 1 - ((Nat.toDigits 10 ((den - 1) / num)).length : Int)

/-- The decimal on the grid of `10 ^ place` that reads back as `mantissa · 2 ^ exponent`, if one of the value's two neighbours
on that grid does. Quarters of the last mantissa place are compared as whole numbers. -/
def onGrid? (mantissa : Nat) (exponent place : Int) : Option Decimal :=
  let unit := (4 * Nat.pow 10 place.toNat) <<< (-exponent).toNat
  let quarter := Nat.pow 10 (-place).toNat <<< exponent.toNat
  let value := 4 * mantissa * quarter
  let below := if mantissa = 1 <<< (precision - 1) ∧ leastExponent < exponent then 1 else 2
  let low := (4 * mantissa - below) * quarter
  let high := (4 * mantissa + 2) * quarter
  let inside (x : Nat) : Bool := if mantissa % 2 = 0 then low ≤ x && x ≤ high else low < x && x < high
  let floor := value / unit
  let rest := value % unit
  match inside (floor * unit), inside ((floor + 1) * unit) with
  | true, true => some ⟨if unit ≤ 2 * rest then floor + 1 else floor, place⟩
  | true, false => some ⟨floor, place⟩
  | false, true => some ⟨floor + 1, place⟩
  | false, false => none

/-- The shortest decimal of a positive finite value: the first of the grids with one, two, … seventeen digits that has one. -/
def shortest (mantissa : Nat) (exponent : Int) : Decimal :=
  let (num, den) := scaled mantissa 1 (-exponent)
  let whole := wholeDigits num den
  let grids := (List.range 17).map fun (i : Nat) => whole - 1 - i
  (grids.findSome? (onGrid? mantissa exponent)).getD ⟨0, 0⟩

/-- A list of digits without its trailing zeros. -/
def dropTrailingZeros (digits : List Char) : List Char := (digits.reverse.dropWhile (· == '0')).reverse

/-- The positional text of a decimal. -/
def Decimal.text (d : Decimal) : String :=
  let digits := Nat.toDigits 10 d.digits
  if 0 ≤ d.exponent then String.ofList (digits ++ List.replicate d.exponent.toNat '0')
  else
    let places := (-d.exponent).toNat
    let padded := List.leftpad (places + 1) '0' digits
    let whole := padded.take (padded.length - places)
    match dropTrailingZeros (padded.drop (padded.length - places)) with
    | [] => String.ofList whole
    | fraction => String.ofList (whole ++ '.' :: fraction)

/-- The text of a binary64 value. -/
def text : Binary64 → String
  | .infinite => "inf"
  | .finite 0 _ => "0"
  | .finite mantissa exponent => (shortest mantissa exponent).text

end Binary64

end RegisterCompiler
