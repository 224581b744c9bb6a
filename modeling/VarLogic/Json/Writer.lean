/-
Compact JSON text: no blanks, quotes and backslashes and the controls below
U+0020 escaped, every other character as it is.
-/
import VarLogic.Decimal.Written
import VarLogic.Json.Value

namespace VarLogic.Json

/-- Doubles in JSON text: positional from `1e-5` up to below `1e16`, and never
without a point or an exponent. -/
def numberStyle : Decimal.Style where
  tie := .toEven
  positional := some (-5, 15)
  pointZero := true

/-- An integer in decimal. -/
def integerChars (n : Int) : List Char :=
  (if n < 0 then ['-'] else []) ++ Nat.toDigits 10 n.natAbs

/-- The text of a number. -/
def Number.chars : Number → List Char
  | .integer n => integerChars n
  | .double x => (x.written numberStyle).toList

/-- One character inside a JSON string. -/
def escapeChar (c : Char) : List Char :=
  if c = '"' then ['\\', '"']
  else if c = '\\' then ['\\', '\\']
  else if c.toNat = 0x8 then ['\\', 'b']
  else if c.toNat = 0xC then ['\\', 'f']
  else if c = '\n' then ['\\', 'n']
  else if c = '\r' then ['\\', 'r']
  else if c = '\t' then ['\\', 't']
  else if c.toNat < 0x20 then
    ['\\', 'u', '0', '0', Nat.digitChar (c.toNat / 16), Nat.digitChar (c.toNat % 16)]
  else [c]

/-- A JSON string. -/
def stringChars (text : String) : List Char :=
  '"' :: text.toList.flatMap escapeChar ++ ['"']

mutual

/-- The compact text of a value. -/
def Value.chars : Value → List Char
  | .null => "null".toList
  | .boolean true => "true".toList
  | .boolean false => "false".toList
  | .number n => n.chars
  | .string s => stringChars s
  | .array items => '[' :: itemsChars items
  | .object members => '{' :: membersChars members
termination_by structural v => v

/-- The items of an array and its closing bracket. -/
def itemsChars : List Value → List Char
  | [] => [']']
  | v :: vs => v.chars ++ moreItemsChars vs
termination_by structural vs => vs

/-- The items after the first, each behind its comma. -/
def moreItemsChars : List Value → List Char
  | [] => [']']
  | v :: vs => ',' :: v.chars ++ moreItemsChars vs
termination_by structural vs => vs

/-- The members of an object and its closing brace. -/
def membersChars : List (String × Value) → List Char
  | [] => ['}']
  | (key, v) :: ms => stringChars key ++ ':' :: v.chars ++ moreMembersChars ms
termination_by structural ms => ms

/-- The members after the first, each behind its comma. -/
def moreMembersChars : List (String × Value) → List Char
  | [] => ['}']
  | (key, v) :: ms => ',' :: stringChars key ++ ':' :: v.chars ++ moreMembersChars ms
termination_by structural ms => ms

end

/-- The compact text of a value. -/
def Value.compact (v : Value) : String := String.ofList v.chars

end VarLogic.Json
