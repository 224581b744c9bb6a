/-
JSON number literals and the numbers they stand for. A literal without
fraction and exponent that fits 64 bits is an integer, except `-0`. Any other
literal is a double: its leading digits as far as they fit 64 bits, scaled by
a power of ten in double arithmetic. So a literal of many digits need not be
the nearest double.
-/
import VarLogic.Json.Value

namespace VarLogic.Json

open Decimal (Double)

/-- A literal in its parts. -/
structure NumberLiteral where
  negative : Bool
  whole : List Char
  fraction : Option (List Char)
  /-- A negative power of ten, and its digits. -/
  exponent : Option (Bool × List Char)
deriving Repr

/-! ## Reading -/

/-- The digits in front, and what follows them. -/
def spanDigits (cs : List Char) : List Char × List Char :=
  (cs.takeWhile Char.isDigit, cs.dropWhile Char.isDigit)

/-- One digit or more. -/
def digits1? (cs : List Char) : Option (List Char × List Char) :=
  match spanDigits cs with
  | ([], _) => none
  | span => some span

/-- The digits before the point: no zero in front of another digit. -/
def whole? (cs : List Char) : Option (List Char × List Char) := do
  let (digits, rest) ← digits1? cs
  match digits with
  | '0' :: _ :: _ => none
  | _ => some (digits, rest)

/-- The point and its digits, if there is a point. -/
def fraction? : List Char → Option (Option (List Char) × List Char)
  | '.' :: cs => do
    let (digits, rest) ← digits1? cs
    some (some digits, rest)
  | cs => some (none, cs)

/-- The exponent, if there is one. -/
def exponent? : List Char → Option (Option (Bool × List Char) × List Char)
  | 'e' :: cs | 'E' :: cs => do
    let (negative, cs) := match cs with
      | '+' :: cs => (false, cs)
      | '-' :: cs => (true, cs)
      | cs => (false, cs)
    let (digits, rest) ← digits1? cs
    some (some (negative, digits), rest)
  | cs => some (none, cs)

/-- The literal in front of a text. -/
def numberLiteral? (cs : List Char) : Option (NumberLiteral × List Char) := do
  let (negative, cs) := match cs with
    | '-' :: cs => (true, cs)
    | cs => (false, cs)
  let (whole, cs) ← whole? cs
  let (fraction, cs) ← fraction? cs
  let (exponent, cs) ← exponent? cs
  some (⟨negative, whole, fraction, exponent⟩, cs)

/-! ## Meaning -/

/-- The value of a decimal digit. -/
def digitValue (c : Char) : Nat := c.toNat - '0'.toNat

/-- The number that digits stand for. -/
def digitsValue (cs : List Char) : Nat :=
  cs.foldl (fun n c => n * 10 + digitValue c) 0

/-- Appends digits to a number as long as it fits 64 bits, and counts the
digits left over. -/
def appendDigits (n : Nat) : List Char → Nat × Nat
  | [] => (n, 0)
  | c :: cs =>
    let next := n * 10 + digitValue c
    if next < UInt64.size then appendDigits next cs else (n, cs.length + 1)

/-- Scales by a power of ten: in steps of `10^308` as long as the exponent is
below -308. -/
def scale? (x : Double) (exponent : Int) : Option Double :=
  if x.significand = 0 then some x
  else if 308 < exponent then none
  else if 0 ≤ exponent then x.mul? (Double.powerOfTen exponent.toNat)
  else if -308 ≤ exponent then x.div? (Double.powerOfTen (-exponent).toNat)
  else do scale? (← x.div? (Double.powerOfTen 308)) (exponent + 308)
termination_by (-exponent).toNat

/-- The double of a literal, if it is in range. -/
def NumberLiteral.double? (l : NumberLiteral) : Option Double := do
  let (n, dropped) := appendDigits 0 l.whole
  let fraction := l.fraction.getD []
  let (n, cut) := appendDigits n fraction
  let exponent : Int := dropped - (fraction.length - cut : Nat)
  let x ← match l.exponent with
    | none => scale? (Double.nearest false n 1) exponent
    | some (negative, digits) =>
      let e := digitsValue digits
      if e < 0x80000000 then
        scale? (Double.nearest false n 1) (exponent + if negative then -(e : Int) else e)
      else if n = 0 || negative then some (Double.nearest false 0 1)
      else none
  some { x with negative := l.negative }

/-- The number of a literal, if it is in range. -/
def NumberLiteral.number? (l : NumberLiteral) : Option Number :=
  match l.fraction, l.exponent with
  | none, none =>
    let n := digitsValue l.whole
    if l.negative then
      if 0 < n ∧ n ≤ 0x8000000000000000 then some (.integer (-n)) else l.double?.map .double
    else if n < UInt64.size then some (.integer n)
    else l.double?.map .double
  | _, _ => l.double?.map .double

end VarLogic.Json
