/-
How a binary64 number is written: its shortest decimal, either with the point
among the digits or in scientific form. What a format decides is one record.
-/
import VarLogic.Decimal.Shortest

namespace VarLogic.Decimal

/-- The decisions of a number format. -/
structure Style where
  /-- Which of two equally near decimals is written. -/
  tie : Tie
  /-- The exponents of the leading digit that are written positionally, first
  and last; all of them where there is no bound. -/
  positional : Option (Int × Int)
  /-- An integral number in positional form ends in `.0`. -/
  pointZero : Bool

/-- Whether a leading digit of this exponent is written positionally. -/
def Style.isPositional (style : Style) (leading : Int) : Bool :=
  match style.positional with
  | none => true
  | some (first, last) => first ≤ leading && leading ≤ last

/-- The point among the digits. -/
def positional (d : Decimal) (pointZero : Bool) : List Char :=
  let digits := Nat.toDigits 10 d.digits
  let point : Int := digits.length + d.exponent
  if 0 ≤ d.exponent then
    digits ++ List.replicate d.exponent.toNat '0' ++ (if pointZero then ['.', '0'] else [])
  else if 0 < point then
    digits.take point.toNat ++ '.' :: digits.drop point.toNat
  else
    '0' :: '.' :: (List.replicate (-point).toNat '0' ++ digits)

/-- One digit before the point, and the power of ten with its sign. -/
def scientific (d : Decimal) : List Char :=
  let digits := Nat.toDigits 10 d.digits
  let leading : Int := digits.length + d.exponent - 1
  let mantissa := match digits with
    | [] => []
    | [c] => [c]
    | c :: cs => c :: '.' :: cs
  mantissa ++ 'e' :: (if leading < 0 then '-' else '+') :: Nat.toDigits 10 leading.natAbs

/-- The text of a number. -/
def Double.written (style : Style) (x : Double) : String :=
  let sign := if x.negative then ['-'] else []
  if x.significand = 0 then String.ofList (sign ++ '0' :: (if style.pointZero then ['.', '0'] else []))
  else
    let d := x.shortest style.tie
    let leading : Int := (Nat.toDigits 10 d.digits).length + d.exponent - 1
    String.ofList <| sign ++
      (if style.isPositional leading then d.positional style.pointZero else d.scientific)

end VarLogic.Decimal
