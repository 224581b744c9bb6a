/-
Conditions: what is written in a configuration. A condition is a leaf, a list
of conditions all or one of which must hold, or a negation. Leaves are hooks,
condition names or toggle ids, depending on the stage.
-/
namespace VarLogic

inductive Condition (α : Type) where
  | leaf (value : α)
  | and (conditions : List (Condition α))
  | or (conditions : List (Condition α))
  | not (condition : Condition α)
deriving Repr, BEq

namespace Condition

/-- Induction with the hypothesis for every member of a list of conditions. -/
@[elab_as_elim, induction_eliminator]
theorem induction {α : Type} {motive : Condition α → Prop} (leaf : ∀ a, motive (.leaf a))
    (and : ∀ cs, (∀ c ∈ cs, motive c) → motive (.and cs))
    (or : ∀ cs, (∀ c ∈ cs, motive c) → motive (.or cs))
    (not : ∀ c, motive c → motive (.not c)) : ∀ c, motive c
  | .leaf a => leaf a
  | .and cs => and cs fun c _ => induction leaf and or not c
  | .or cs => or cs fun c _ => induction leaf and or not c
  | .not c => not c (induction leaf and or not c)

/-- A condition without a leaf. -/
def vacuous {α : Type} : Condition α := .and []

/-! ## Leaves -/

mutual

/-- The leaves, left to right. -/
def leaves {α : Type} : Condition α → List α
  | .leaf a => [a]
  | .and cs | .or cs => leavesOf cs
  | .not c => c.leaves
termination_by structural c => c

/-- The leaves of a list of conditions. -/
def leavesOf {α : Type} : List (Condition α) → List α
  | [] => []
  | c :: cs => c.leaves ++ leavesOf cs
termination_by structural cs => cs

end

theorem leavesOf_eq_flatMap {α : Type} (cs : List (Condition α)) :
    leavesOf cs = cs.flatMap leaves := by
  induction cs with
  | nil => rfl
  | cons c cs ih => simp [leavesOf, ih]

/-! ## Substitution -/

mutual

/-- Replaces every leaf by a condition, left to right, with effects. -/
def bindM {α β : Type} {m : Type → Type} [Monad m] (f : α → m (Condition β)) :
    Condition α → m (Condition β)
  | .leaf a => f a
  | .and cs => do return .and (← bindAllM f cs)
  | .or cs => do return .or (← bindAllM f cs)
  | .not c => do return .not (← bindM f c)
termination_by structural c => c

/-- Replaces the leaves of a list of conditions. -/
def bindAllM {α β : Type} {m : Type → Type} [Monad m] (f : α → m (Condition β)) :
    List (Condition α) → m (List (Condition β))
  | [] => return []
  | c :: cs => do return (← bindM f c) :: (← bindAllM f cs)
termination_by structural cs => cs

end

mutual

/-- Replaces every leaf by a condition. -/
def bind {α β : Type} (f : α → Condition β) : Condition α → Condition β
  | .leaf a => f a
  | .and cs => .and (bindAll f cs)
  | .or cs => .or (bindAll f cs)
  | .not c => .not (bind f c)
termination_by structural c => c

/-- Replaces the leaves of a list of conditions. -/
def bindAll {α β : Type} (f : α → Condition β) : List (Condition α) → List (Condition β)
  | [] => []
  | c :: cs => bind f c :: bindAll f cs
termination_by structural cs => cs

end

/-- Maps every leaf. -/
def map {α β : Type} (f : α → β) (c : Condition α) : Condition β :=
  c.bind fun a => .leaf (f a)

theorem bindAll_eq_map {α β : Type} (f : α → Condition β) (cs : List (Condition α)) :
    bindAll f cs = cs.map (bind f) := by
  induction cs with
  | nil => rfl
  | cons c cs ih => simp [bindAll, ih]

/-! ## Display -/

mutual

/-- The condition as a term: `and(a, not(b))`. -/
def display : Condition String → String
  | .leaf a => a
  | .and cs => "and(" ++ displayAll cs ++ ")"
  | .or cs => "or(" ++ displayAll cs ++ ")"
  | .not c => "not(" ++ c.display ++ ")"
termination_by structural c => c

/-- The terms of a list, with commas between them. -/
def displayAll : List (Condition String) → String
  | [] => ""
  | c :: cs => c.display ++ displayRest cs
termination_by structural cs => cs

/-- The terms after the first, each behind a comma. -/
def displayRest : List (Condition String) → String
  | [] => ""
  | c :: cs => ", " ++ c.display ++ displayRest cs
termination_by structural cs => cs

end

end Condition

end VarLogic
