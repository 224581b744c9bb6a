/-
Finite binary64 numbers, by exact arithmetic on naturals. A number is a sign,
a significand below `2^53` and a power of two; every operation is its exact
result, a ratio, rounded once to the nearest number, a tie to the even
significand. Numbers of exponent above 971 are beyond the finite range and no
operation returns one.
-/
namespace VarLogic.Decimal

/-- The quotient rounded to the nearest natural, a tie to the even one. -/
def roundDiv (num den : Nat) : Nat :=
  let q := num / den
  let r := num % den
  if 2 * r < den then q else if den < 2 * r then q + 1 else q + q % 2

/-- `significand * 2^exponent`, with a sign; zero keeps its sign too. -/
structure Double where
  negative : Bool
  significand : Nat
  exponent : Int
deriving DecidableEq, Repr

namespace Double

/-- The smallest exponent, that of the subnormal numbers. -/
def minExponent : Int := -1074

/-- The largest exponent of a finite number. -/
def maxExponent : Int := 971

/-- The least significand of 53 bits, `2^52`. -/
def leastNormal : Nat := 0x10000000000000

/-- Numerator of the magnitude. -/
def num (x : Double) : Nat := x.significand * Nat.pow 2 x.exponent.toNat

/-- Denominator of the magnitude. -/
def den (x : Double) : Nat := Nat.pow 2 (-x.exponent).toNat

/-- The exponent at which a positive ratio has a significand of 53 bits, or
the smallest exponent. -/
def unitExponent (num den : Nat) : Int :=
  let k : Int := (Nat.log2 num : Int) - Nat.log2 den
  let below := num * Nat.pow 2 (-k).toNat < den * Nat.pow 2 k.toNat
  max (if below then k - 53 else k - 52) minExponent

/-- The number nearest to `num / den`, with exponents unbounded above. -/
def nearest (negative : Bool) (num den : Nat) : Double :=
  if num = 0 then ⟨negative, 0, minExponent⟩
  else
    let e := unitExponent num den
    let m := roundDiv (num * Nat.pow 2 (-e).toNat) (den * Nat.pow 2 e.toNat)
    if m = 2 * leastNormal then ⟨negative, leastNormal, e + 1⟩ else ⟨negative, m, e⟩

/-- The finite number nearest to `num / den`, if there is one. -/
def ofRatio? (negative : Bool) (num den : Nat) : Option Double :=
  let x := nearest negative num den
  if x.exponent ≤ maxExponent then some x else none

/-- The number nearest to a power of ten. -/
def powerOfTen (k : Nat) : Double := nearest false (Nat.pow 10 k) 1

/-- The rounded product. -/
def mul? (x y : Double) : Option Double :=
  ofRatio? (x.negative != y.negative) (x.num * y.num) (x.den * y.den)

/-- The rounded quotient. -/
def div? (x y : Double) : Option Double :=
  if y.significand = 0 then none
  else ofRatio? (x.negative != y.negative) (x.num * y.den) (x.den * y.num)

/-- `digits * 10^exponent`, rounded once. What is far out of range is told by
its number of digits, without the power of ten. -/
def ofDecimal? (negative : Bool) (digits : Nat) (exponent : Int) : Option Double :=
  let magnitude : Int := (Nat.toDigits 10 digits).length + exponent
  if digits = 0 ∨ magnitude < -330 then some (nearest negative 0 1)
  else if 310 < magnitude then none
  else ofRatio? negative (digits * Nat.pow 10 exponent.toNat) (Nat.pow 10 (-exponent).toNat)

end Double

end VarLogic.Decimal
