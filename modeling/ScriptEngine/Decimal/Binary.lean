/-!
# Floats as exact numbers

A finite float is a significand times a power of two. `FloatClass.of` takes a float apart, and
`nearestBits` finds the float nearest to a fraction: ties go to the even significand, and numbers
beyond the largest float become infinite.
-/

namespace ScriptEngine.Decimal

/-- What the bits of a float stand for; a finite one is `significand * 2 ^ exponent`. -/
inductive FloatClass where
  | nan
  | infinite (negative : Bool)
  | finite (negative : Bool) (significand : Nat) (exponent : Int)
  deriving Repr, DecidableEq, Inhabited

/-- The number of bits of a significand after its first. -/
def fractionBits : Nat := 52

/-- The first bit of a significand; only the smallest floats lack it. -/
def firstBit : Nat := 1 <<< fractionBits

/-- The exponent of the smallest floats. -/
def leastExponent : Int := -1074

def FloatClass.ofBits (bits : UInt64) : FloatClass :=
  let n := bits.toNat
  let negative := n >>> 63 = 1
  let field := (n >>> fractionBits) % 2048
  let fraction := n % firstBit
  if field = 2047 then
    if fraction = 0 then .infinite negative else .nan
  else if field = 0 then .finite negative fraction leastExponent
  else .finite negative (fraction + firstBit) (leastExponent + (field - 1 : Nat))

def FloatClass.of (v : Float) : FloatClass := .ofBits v.toBits

def signBit (v : Float) : Bool := v.toBits.toNat >>> 63 = 1

/-- The quotient of two numbers, rounded to the nearest; ties go to the even one. -/
def roundDiv (num den : Nat) : Nat :=
  let q := num / den
  let r := num % den
  if 2 * r < den then q
  else if den < 2 * r then q + 1
  else if q % 2 = 0 then q else q + 1

/-- The fraction `num / den * 2 ^ e`, as numerator and denominator. -/
def scaleTwo (num den : Nat) (e : Int) : Nat × Nat :=
  if 0 ≤ e then (num <<< e.toNat, den) else (num, den <<< (-e).toNat)

/-- The number with a one and `n` zeros. -/
def tenTo (n : Nat) : Nat := Nat.pow 10 n

/-- The fraction `num / den * 10 ^ e`, as numerator and denominator. -/
def scaleTen (num den : Nat) (e : Int) : Nat × Nat :=
  if 0 ≤ e then (num * tenTo e.toNat, den) else (num, den * tenTo (-e).toNat)

/-- The largest `e` with `2 ^ e ≤ num / den`, for positive numbers. -/
def floorLogTwo (num den : Nat) : Int :=
  let guess : Int := (Nat.log2 num : Int) - Nat.log2 den
  let (n, d) := scaleTwo num den (-guess)
  if d ≤ n then guess else guess - 1

def infinityBits : Nat := 2047 * firstBit

/-- The bits of the positive float nearest to `num / den`. -/
def nearestBits (num den : Nat) : Nat :=
  if num = 0 then 0
  else
    let e := max (floorLogTwo num den - fractionBits) leastExponent
    let (n, d) := scaleTwo num den (-e)
    -- a significand that rounds up to 2 ^ 53 carries into the exponent
    let bits := roundDiv n d + (e - leastExponent).toNat * firstBit
    min bits infinityBits

end ScriptEngine.Decimal
