/-
Conditions in documents. A text is a leaf, and an object with the single
member `and`, `or` or `not` the condition of that name.
-/
import VarLogic.Condition.Basic
import VarLogic.Misfit

namespace VarLogic.Condition

open Json (Value)

/-! ## Writing -/

mutual

/-- The document value of a condition. -/
def toValue : Condition String → Value
  | .leaf a => .string a
  | .and cs => .object [("and", .array (toValues cs))]
  | .or cs => .object [("or", .array (toValues cs))]
  | .not c => .object [("not", c.toValue)]
termination_by structural c => c

/-- The document values of a list of conditions. -/
def toValues : List (Condition String) → List Value
  | [] => []
  | c :: cs => c.toValue :: toValues cs
termination_by structural cs => cs

end

/-! ## Reading -/

/-- What a condition should look like. -/
def expected : String := "a string or an object with one of `and`, `or`, `not`"

mutual

/-- The condition a document value describes. The first member decides, and
its value is read before a second member is objected to. -/
def ofValue : Value → Except Misfit (Condition String)
  | .string s => .ok (.leaf s)
  | .object [] => .error .emptyCondition
  | .object ((operator, operand) :: others) => do
    let c ←
      if operator = "and" then .and <$> operands operand
      else if operator = "or" then .or <$> operands operand
      else if operator = "not" then .not <$> ofValue operand
      else .error (.unknownField operator ["and", "or", "not"])
    match others with
    | [] => return c
    | (other, _) :: _ => .error (.mixedOperators operator other)
  | v => .error (.wrongType v expected)
termination_by structural v => v

/-- The conditions of a list. -/
def operands : Value → Except Misfit (List (Condition String))
  | .array items => ofValues items
  | v => .error (.wrongType v "a sequence")
termination_by structural v => v

/-- The conditions of items. -/
def ofValues : List Value → Except Misfit (List (Condition String))
  | [] => .ok []
  | v :: vs => do return (← ofValue v) :: (← ofValues vs)
termination_by structural vs => vs

end

end VarLogic.Condition
