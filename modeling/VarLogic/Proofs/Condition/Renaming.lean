/-
Renaming leaves. What the leaves are called does not matter for the shape of a
normal form or of a formula: both are made before or after the leaves are
renamed, with the same result (`normal?_map`, `ofCondition?_map`).
-/
import VarLogic.Proofs.Condition.Substitution
import VarLogic.Proofs.Condition.Truth

namespace VarLogic

namespace Formula

variable {α β : Type}

theorem leaves_map (g : α → β) (f : Formula α) : (f.map g).leaves = f.leaves.map g := by
  induction f with
  | leaf a => rfl
  | and l r ihl ihr | or l r ihl ihr => simp [map, leaves, ihl, ihr]
  | not f ih => exact ih

theorem map_chain? {f : α → β} (join : Formula α → Formula α → Formula α)
    (join' : Formula β → Formula β → Formula β)
    (hj : ∀ l r, (join l r).map f = join' (l.map f) (r.map f)) (hs : List (Formula α)) :
    chain? join' (hs.map (map f)) = (chain? join hs).map (map f) := by
  induction hs with
  | nil => rfl
  | cons h hs ih =>
    rw [List.map_cons, chain?, chain?, ih]
    cases chain? join hs <;> simp [hj]

end Formula

namespace Condition

variable {α β : Type} (f : α → β)

theorem map_and (cs : List (Condition α)) : (Condition.and cs).map f = .and (cs.map (map f)) := by
  rw [map, bind, bindAll_eq_map]
  rfl

theorem map_or (cs : List (Condition α)) : (Condition.or cs).map f = .or (cs.map (map f)) := by
  rw [map, bind, bindAll_eq_map]
  rfl

/-- What the members of a list are made into, where renaming them first makes
no difference. -/
theorem filterMap_map {γ δ : Type} {g : Condition α → Option γ} {g' : Condition β → Option δ}
    {k : γ → δ} {cs : List (Condition α)} (h : ∀ c ∈ cs, g' (c.map f) = (g c).map k) :
    (cs.map (map f)).filterMap g' = (cs.filterMap g).map k := by
  rw [List.filterMap_map, List.map_filterMap]
  exact List.filterMap_congr h

theorem IsNormal.map {c : Condition α} (h : IsNormal c) : IsNormal (c.map f) := by
  induction h with
  | leaf a => exact .leaf (f a)
  | and _ _ ihc ihd => exact .and ihc ihd
  | or _ _ ihc ihd => exact .or ihc ihd
  | @not c _ hn ih =>
    refine .not ih fun d hd => ?_
    cases c with
    | not e => exact hn e rfl
    | leaf | and | or => cases hd

/-- Renaming the leaves commutes with normalizing: it is a substitution, and what
it makes of a normal form is one. -/
theorem normal?_map (c : Condition α) : (c.map f).normal? = c.normal?.map (map f) := by
  rw [map, ← bind_normal?]
  cases hd : c.normal? with
  | none => rfl
  | some d => exact normal?_of_isNormal ((isNormal_of_normal? hd).map f)

/-- Renaming the leaves commutes with making a formula of a condition as it
stands. -/
theorem lower?_map (c : Condition α) :
    Formula.lower? (c.map f) = (Formula.lower? c).map (Formula.map f) := by
  induction c with
  | leaf a => rfl
  | and cs ih =>
    rw [map_and, Formula.lower?, Formula.lower?, lowers_eq_filterMap, lowers_eq_filterMap,
      filterMap_map f ih, Formula.map_chain? .and .and fun _ _ => rfl]
  | or cs ih =>
    rw [map_or, Formula.lower?, Formula.lower?, lowers_eq_filterMap, lowers_eq_filterMap,
      filterMap_map f ih, Formula.map_chain? .or .or fun _ _ => rfl]
  | not c ih =>
    change (Formula.lower? (c.map f)).map Formula.not = _
    rw [ih, Formula.lower?, Option.map_map, Option.map_map]
    rfl

/-- **The formula of a condition does not depend on what its leaves are
called.** -/
theorem ofCondition?_map (c : Condition α) :
    Formula.ofCondition? (c.map f) = (Formula.ofCondition? c).map (Formula.map f) := by
  rw [Formula.ofCondition?, Formula.ofCondition?, normal?_map, Option.bind_map, Option.map_bind]
  exact congrArg _ (funext fun d => lower?_map f d)

end Condition

end VarLogic
