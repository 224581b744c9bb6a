/-
Conditions in values that were parsed, and what can be wrong with such a value.
A parsed value has the members of an object in order of their keys, each key
once, whatever its text had. Its first fault is found in that order: the first
member of an object decides, faults in its value come next, and a second member
is objected to at last.
-/
import VarLogic.Condition.Json
import VarLogic.Error

namespace VarLogic.Condition

open Json (Value)

/-- The condition a parsed value describes. -/
def ofParsed (v : Value) : Except Error (Condition String) :=
  (ofValue v.sorted).mapError .invalidCondition

/-- What is wrong with a value that should be a condition. -/
inductive Fault : Value → Misfit → Prop where
  | wrongType {v : Value} : (∀ s, v ≠ .string s) → (∀ members, v ≠ .object members) →
      Fault v (.wrongType v expected)
  | empty : Fault (.object []) .emptyCondition
  | unknownOperator {operator : String} {operand : Value} {others : List (String × Value)} :
      operator ∉ ["and", "or", "not"] →
      Fault (.object ((operator, operand) :: others)) (.unknownField operator ["and", "or", "not"])
  | notAList {operator : String} {operand : Value} {others : List (String × Value)} :
      operator ∈ ["and", "or"] → (∀ items, operand ≠ .array items) →
      Fault (.object ((operator, operand) :: others)) (.wrongType operand "a sequence")
  /-- The first item with a fault. -/
  | item {operator : String} {front : List (Condition String)} {v : Value} {back : List Value}
      {others : List (String × Value)} {why : Misfit} : operator ∈ ["and", "or"] → Fault v why →
      Fault (.object ((operator, .array (toValues front ++ v :: back)) :: others)) why
  | operand {operand : Value} {others : List (String × Value)} {why : Misfit} : Fault operand why →
      Fault (.object (("not", operand) :: others)) why
  /-- A second operator, behind one that is a condition by itself. -/
  | mixed {c : Condition String} {operator other : String} {operand second : Value}
      {others : List (String × Value)} : c.toValue = .object [(operator, operand)] →
      Fault (.object ((operator, operand) :: (other, second) :: others))
        (.mixedOperators operator other)

end VarLogic.Condition
