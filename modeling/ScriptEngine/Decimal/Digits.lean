import ScriptEngine.Decimal.Binary
import ScriptEngine.Text.Pad
/-!
# Decimal digits of floats

`shortest` gives the fewest digits that read back as the float, the nearest to it of those, and the
larger of two equally near. `toPlaces` rounds to a number of decimal places, `toSignificant` to a
number of digits; both are exact, and ties go to the even digit. The texts come in two notations:
positional and with a power of ten.
-/

namespace ScriptEngine.Decimal

/-- The number `coefficient * 10 ^ exponent`. -/
structure Digits where
  coefficient : Nat
  exponent : Int
  deriving Repr, DecidableEq, Inhabited

/-- Moves zeros at the end of the coefficient into the exponent, at most `fuel` of them. -/
def Digits.trim : Nat → Digits → Digits
  | 0, d => d
  | fuel + 1, d =>
    if d.coefficient ≠ 0 ∧ d.coefficient % 10 = 0 then
      trim fuel ⟨d.coefficient / 10, d.exponent + 1⟩
    else d

/-- How often a fraction below 1 can be multiplied by ten until it reaches 1, within the fuel. -/
def leadingZeros (den : Nat) : Nat → Nat → Nat
  | 0, _ => 0
  | fuel + 1, num => if den ≤ num then 0 else leadingZeros den fuel (num * 10) + 1

/-- The largest `e` with `10 ^ e ≤ num / den`, for a positive float. -/
def floorLogTen (num den : Nat) : Int :=
  if den ≤ num then ((Nat.toDigits 10 (num / den)).length : Int) - 1
  else -(leadingZeros den 400 num : Int)

/-! ### The fewest digits that read back -/

/-- The float `significand * 2 ^ exponent` and the ends of the interval that rounds to it, over one
denominator. -/
structure Rounding where
  value : Nat
  low : Nat
  high : Nat
  den : Nat
  /-- Whether the ends themselves round to the float. -/
  closed : Bool

/-- The interval of a positive float. Below a power of two the neighbour is half as far. -/
def Rounding.of (significand : Nat) (exponent : Int) : Rounding :=
  let below := if significand = firstBit ∧ leastExponent < exponent then 1 else 2
  let unit := scaleTwo 1 1 (exponent - 2)
  { value := 4 * significand * unit.1
    low := (4 * significand - below) * unit.1
    high := (4 * significand + 2) * unit.1
    den := unit.2
    closed := significand % 2 = 0 }

/-- Whether `c * 10 ^ k` rounds to the float. -/
def Rounding.holds (r : Rounding) (c : Nat) (k : Int) : Bool :=
  let (n, d) := scaleTen c 1 k
  let x := n * r.den
  if r.closed then r.low * d ≤ x && x ≤ r.high * d else r.low * d < x && x < r.high * d

/-- The float's neighbour with the last digit at `10 ^ k`, if one rounds to it. -/
def Rounding.candidate (r : Rounding) (k : Int) : Option Digits :=
  let (n, d) := scaleTen r.value r.den (-k)
  let c := n / d
  let up := r.holds (c + 1) k
  let down := r.holds c k && 0 < c
  -- of two hits the nearer one, and the larger one at a tie
  let nearerUp := d ≤ 2 * (n % d)
  if up && (!down || nearerUp) then some ⟨c + 1, k⟩
  else if down then some ⟨c, k⟩
  else none

/-- The first grid with a hit, starting with the coarsest, among `fuel` grids. -/
def Rounding.search (r : Rounding) : Nat → Int → Digits
  | 0, k => ⟨(scaleTen r.value r.den (-k)).1 / (scaleTen r.value r.den (-k)).2, k⟩
  | fuel + 1, k =>
    match r.candidate k with
    | some d => d
    | none => r.search fuel (k - 1)

/-- The fewest digits that read back as `significand * 2 ^ exponent`. -/
def shortest (significand : Nat) (exponent : Int) : Digits :=
  if significand = 0 then ⟨0, 0⟩
  else
    let r := Rounding.of significand exponent
    (r.search 17 (floorLogTen r.value r.den)).trim 20

/-! ### Rounding to a number of digits -/

/-- `significand * 2 ^ exponent` rounded to `places` decimal places. -/
def toPlaces (significand : Nat) (exponent : Int) (places : Nat) : Digits :=
  let (n, d) := scaleTwo significand 1 exponent
  ⟨roundDiv (n * tenTo places) d, -(places : Int)⟩

/-- `significand * 2 ^ exponent` rounded to `places` digits after the first one. -/
def toSignificant (significand : Nat) (exponent : Int) (places : Nat) : Digits :=
  if significand = 0 then ⟨0, -(places : Int)⟩
  else
    let (n, d) := scaleTwo significand 1 exponent
    let k := floorLogTen n d - places
    let (n, d) := scaleTen n d (-k)
    let c := roundDiv n d
    if c = tenTo (places + 1) then ⟨tenTo places, k + 1⟩ else ⟨c, k⟩

/-! ### Texts -/

/-- Puts a point before the last `places` digits of a coefficient. -/
def pointed (coefficient places : Nat) : String :=
  if places = 0 then Text.decimal coefficient
  else
    let digits := (Text.padLeft (places + 1) '0' (Text.decimal coefficient)).toList
    let whole := digits.length - places
    String.ofList (digits.take whole) ++ "." ++ String.ofList (digits.drop whole)

/-- Positional notation: all digits are written out. -/
def Digits.positional (d : Digits) : String :=
  if 0 ≤ d.exponent then Text.decimal (d.coefficient * tenTo d.exponent.toNat)
  else pointed d.coefficient (-d.exponent).toNat

/-- The power of ten of the first digit. -/
def Digits.magnitude (d : Digits) : Int :=
  if d.coefficient = 0 then 0 else d.exponent + ((Text.decimal d.coefficient).length : Int) - 1

/-- The digits with a point after the first one; `places` of them follow it when 0 is written. -/
def Digits.mantissa (d : Digits) : String :=
  if d.coefficient = 0 then pointed 0 (-d.exponent).toNat
  else pointed d.coefficient ((Text.decimal d.coefficient).length - 1)

/-- The power of ten of the first digit, with its sign and at least two digits. -/
def Digits.power (d : Digits) : String :=
  let sign := if d.magnitude < 0 then "-" else "+"
  "e" ++ sign ++ Text.padLeft 2 '0' (Text.decimal d.magnitude.natAbs)

/-- Notation with a power of ten: one digit before the point, then the power. -/
def Digits.scientific (d : Digits) : String := d.mantissa ++ d.power

end ScriptEngine.Decimal
