/-
Normal forms. Branches without a leaf are dropped, a list of one is its
member, longer lists nest to the right two by two, and double negations
collapse. A condition without any leaf has no normal form.
-/
import VarLogic.Condition.Basic

namespace VarLogic.Condition

/-- The negation, taking off a `not` rather than putting a second one. -/
def negate {α : Type} : Condition α → Condition α
  | .not c => c
  | c => .not c

/-- Joins conditions two by two, to the right. -/
def chain? {α : Type} (join : List (Condition α) → Condition α) :
    List (Condition α) → Option (Condition α)
  | [] => none
  | c :: cs => match chain? join cs with
    | none => some c
    | some d => some (join [c, d])

mutual

/-- The normal form, if there is a leaf. -/
def normal? {α : Type} : Condition α → Option (Condition α)
  | .leaf a => some (.leaf a)
  | .and cs => chain? .and (normals cs)
  | .or cs => chain? .or (normals cs)
  | .not c => (normal? c).map negate
termination_by structural c => c

/-- The normal forms of the members that have one. -/
def normals {α : Type} : List (Condition α) → List (Condition α)
  | [] => []
  | c :: cs => match normal? c with
    | none => normals cs
    | some d => d :: normals cs
termination_by structural cs => cs

end

/-- The normal forms: two members a list, and no negation right inside a
negation. -/
inductive IsNormal {α : Type} : Condition α → Prop where
  | leaf (a : α) : IsNormal (.leaf a)
  | and {c d : Condition α} : IsNormal c → IsNormal d → IsNormal (.and [c, d])
  | or {c d : Condition α} : IsNormal c → IsNormal d → IsNormal (.or [c, d])
  | not {c : Condition α} : IsNormal c → (∀ d, c ≠ .not d) → IsNormal (.not c)

theorem normals_eq_filterMap {α : Type} (cs : List (Condition α)) :
    normals cs = cs.filterMap normal? := by
  induction cs with
  | nil => rfl
  | cons c cs ih => cases h : normal? c <;> simp [normals, h, ih]

end VarLogic.Condition
