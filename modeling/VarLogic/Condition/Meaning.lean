/-
What conditions mean, given the truth of every leaf. A list holds if all of
its conditions do, or if one does; a condition without a leaf has no truth
value, and a list leaves it out (`truth?`). Read as it stands, with nothing left
out, every condition has a value, also an empty list (`eval`).
-/
import VarLogic.Condition.Basic

namespace VarLogic.Condition

mutual

/-- The truth value, if there is a leaf. -/
def truth? {α : Type} (holds : α → Bool) : Condition α → Option Bool
  | .leaf a => some (holds a)
  | .and cs => match truths holds cs with
    | [] => none
    | values => some (values.all id)
  | .or cs => match truths holds cs with
    | [] => none
    | values => some (values.any id)
  | .not c => (truth? holds c).map Bool.not
termination_by structural c => c

/-- The truth values of the members that have one. -/
def truths {α : Type} (holds : α → Bool) : List (Condition α) → List Bool
  | [] => []
  | c :: cs => match truth? holds c with
    | none => truths holds cs
    | some value => value :: truths holds cs
termination_by structural cs => cs

end

theorem truths_eq_filterMap {α : Type} (holds : α → Bool) (cs : List (Condition α)) :
    truths holds cs = cs.filterMap (truth? holds) := by
  induction cs with
  | nil => rfl
  | cons c cs ih => cases h : truth? holds c <;> simp [truths, h, ih]

mutual

/-- Whether the condition holds as it stands: an empty `and` does, and an empty
`or` does not. -/
def eval {α : Type} (holds : α → Bool) : Condition α → Bool
  | .leaf a => holds a
  | .and cs => evalAll holds cs
  | .or cs => evalAny holds cs
  | .not c => !c.eval holds
termination_by structural c => c

/-- Whether all members hold. -/
def evalAll {α : Type} (holds : α → Bool) : List (Condition α) → Bool
  | [] => true
  | c :: cs => c.eval holds && evalAll holds cs
termination_by structural cs => cs

/-- Whether one of the members holds. -/
def evalAny {α : Type} (holds : α → Bool) : List (Condition α) → Bool
  | [] => false
  | c :: cs => c.eval holds || evalAny holds cs
termination_by structural cs => cs

end

end VarLogic.Condition
