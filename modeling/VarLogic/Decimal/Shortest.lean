/-
The shortest decimal of a binary64 number: of the decimals that round to the
number, one with the fewest digits, and of those the nearest. The interval of
reals that round to the number ends halfway to its neighbours, and its ends
belong to it when the significand is even. For 1, 2, ... 17 digits the search
tests the two neighbours of the number on the grid of that many digits.
-/
import VarLogic.Decimal.Double

namespace VarLogic

/-- `digits * 10^exponent`. -/
structure Decimal where
  digits : Nat
  exponent : Int
deriving DecidableEq, Repr

namespace Decimal

/-- Which of two equally near decimals is taken. -/
inductive Tie where
  | toEven
  | up
deriving DecidableEq, Repr

/-- `a * 10^i` against `n * 2^j`. -/
def compareScaled (a : Nat) (i : Int) (n : Nat) (j : Int) : Ordering :=
  compare (a * Nat.pow 10 i.toNat * Nat.pow 2 (-j).toNat)
    (n * Nat.pow 2 j.toNat * Nat.pow 10 (-i).toNat)

namespace Double

/-- The neighbour below is half as far as the neighbour above. -/
def narrowBelow (x : Double) : Bool :=
  x.significand == leastNormal && minExponent < x.exponent

/-- `digits * 10^exponent` lies among the reals that round to the magnitude. -/
def readsBack (x : Double) (digits : Nat) (exponent : Int) : Bool :=
  let lo := 4 * x.significand - (if x.narrowBelow then 1 else 2)
  let hi := 4 * x.significand + 2
  let closed := x.significand % 2 == 0
  let atLo := compareScaled digits exponent lo (x.exponent - 2)
  let atHi := compareScaled digits exponent hi (x.exponent - 2)
  (atLo == .gt || (closed && atLo == .eq)) && (atHi == .lt || (closed && atHi == .eq))

/-- The least `k` with the magnitude below `10^k`, for a number that is not 0. -/
def decimalScale (x : Double) : Int :=
  if x.den ≤ x.num then (Nat.toDigits 10 (x.num / x.den)).length
  else 1 - ((Nat.toDigits 10 ((x.den - 1) / x.num)).length : Int)

/-- The nearer of two neighbours on a grid, both of which read back. -/
def nearer (tie : Tie) (x : Double) (below : Nat) (grid : Int) : Nat :=
  match compareScaled (2 * below + 1) grid (2 * x.significand) x.exponent with
  | .gt => below
  | .lt => below + 1
  | .eq => match tie with
    | .up => below + 1
    | .toEven => below + below % 2

/-- A point of the grid of `10^grid` that reads back, the nearest one. -/
def onGrid? (tie : Tie) (x : Double) (grid : Int) : Option Decimal :=
  let below := (x.num * Nat.pow 10 (-grid).toNat) / (x.den * Nat.pow 10 grid.toNat)
  match x.readsBack below grid, x.readsBack (below + 1) grid with
  | true, true => some ⟨x.nearer tie below grid, grid⟩
  | true, false => some ⟨below, grid⟩
  | false, true => some ⟨below + 1, grid⟩
  | false, false => none

/-- The magnitude itself. -/
def exactly (x : Double) : Decimal :=
  if 0 ≤ x.exponent then ⟨x.num, 0⟩
  else ⟨x.significand * Nat.pow 5 (-x.exponent).toNat, x.exponent⟩

end Double

/-- Trailing zeros of the digits moved into the exponent. -/
def stripped (d : Decimal) : Decimal :=
  if d.digits = 0 then d
  else if d.digits % 10 = 0 then stripped ⟨d.digits / 10, d.exponent + 1⟩
  else d
termination_by d.digits
decreasing_by omega

/-- The shortest decimal of a number that is not 0. -/
def Double.shortest (tie : Tie) (x : Double) : Decimal :=
  let k := x.decimalScale
  let found := (List.range 17).findSome? fun n : Nat => x.onGrid? tie (k - (n + 1))
  (found.getD x.exactly).stripped

end Decimal

end VarLogic
