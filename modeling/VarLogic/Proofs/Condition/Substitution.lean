/-
Substitution in normal forms. Conditions can be put in place of the leaves before
or after normalizing, with the same normal form in the end (`bind_normal?`): the
members of a list that were joined two by two come apart again when they are
joined once more (`normal?_bind_chain?`), and a negation that was taken off is
taken off anyway (`normal?_bind_negate`). It makes no difference either if what
is put in place has been normalized (`normal?_bind`).
-/
import VarLogic.Proofs.Condition.Normal

namespace VarLogic.Condition

variable {α β : Type} {f : α → Condition β}

/-! ## Lists -/

theorem normals_cons (c : Condition α) (cs : List (Condition α)) :
    normals (c :: cs) = (normal? c).toList ++ normals cs := by
  cases h : normal? c <;> simp [normals, h]

/-- What a list is joined into can stand for it in a list with one more member. -/
theorem chain?_append_toList (join : List (Condition α) → Condition α) (o : Option (Condition α))
    (cs : List (Condition α)) :
    chain? join (o.toList ++ (chain? join cs).toList) = chain? join (o.toList ++ cs) := by
  have hcs : chain? join (chain? join cs).toList = chain? join cs := by
    cases chain? join cs <;> rfl
  cases o with
  | none => exact hcs
  | some c => simp only [Option.toList_some, List.singleton_append, chain?, hcs]

/-- Joining members two by two before the substitution changes nothing. -/
theorem normal?_bind_chain? {join : List (Condition α) → Condition α}
    {join' : List (Condition β) → Condition β}
    (hj : ∀ cs, normal? ((join cs).bind f) = chain? join' (normals (bindAll f cs)))
    (cs : List (Condition α)) :
    (chain? join cs).bind (fun d => normal? (d.bind f)) = chain? join' (normals (bindAll f cs)) := by
  induction cs with
  | nil => rfl
  | cons c cs ih =>
    rw [chain?, bindAll, normals_cons, ← chain?_append_toList, ← ih]
    cases chain? join cs with
    | none => cases h : normal? (c.bind f) <;> simp [h, chain?]
    | some d => simp [hj, bindAll, normals_cons, normals.eq_1]

/-- Nor does normalizing the members. -/
theorem normals_bindAll {cs : List (Condition α)}
    (ih : ∀ c ∈ cs, (normal? c).bind (fun d => normal? (d.bind f)) = normal? (c.bind f)) :
    normals (bindAll f (normals cs)) = normals (bindAll f cs) := by
  simp only [normals_eq_filterMap, bindAll_eq_map, List.filterMap_map, List.filterMap_filterMap]
  exact List.filterMap_congr ih

/-! ## Conditions -/

theorem normal?_bind_negate (c : Condition α) :
    normal? (c.negate.bind f) = (normal? (c.bind f)).map negate := by
  cases c with
  | not c => exact (normal?_not_not (c.bind f)).symm
  | leaf | and | or => rfl

/-- A condition may be normalized before its leaves are replaced. -/
theorem bind_normal? (c : Condition α) :
    (normal? c).bind (fun d => normal? (d.bind f)) = normal? (c.bind f) := by
  induction c with
  | leaf a => rfl
  | and cs ih | or cs ih =>
    rw [normal?, normal?_bind_chain? (fun _ => rfl), normals_bindAll ih, bind, normal?]
  | not c ih =>
    rw [bind, normal?, normal?, ← ih, Option.bind_map, Option.map_bind]
    exact congrArg _ (funext fun d => normal?_bind_negate d)

theorem normal?_getD_vacuous (c : Condition α) :
    normal? ((normal? c).getD vacuous) = normal? c := by
  cases hd : normal? c with
  | none => rfl
  | some d => exact normal?_of_normal? hd

/-- **Normalizing commutes with substitution.** The normal form of a condition
with others in place of its leaves is that of its normal form with theirs in
place of the leaves, a vacuous condition where there is none. -/
theorem normal?_bind (f : α → Condition β) (c : Condition α) :
    normal? (c.bind f) =
      (normal? c).bind fun d => normal? (d.bind fun a => (normal? (f a)).getD vacuous) := by
  rw [← bind_normal?]
  refine congrArg _ (funext fun d => normal?_bind_congr fun a _ => ?_)
  exact (normal?_getD_vacuous (f a)).symm

-- The second leaf goes, and the chain is one negation, right inside the other.
example : normal? ((Condition.not (.and [.leaf true, .leaf false])).bind fun a =>
    if a then .not (.leaf 1) else .or []) = some (.leaf 1) := rfl

end VarLogic.Condition
