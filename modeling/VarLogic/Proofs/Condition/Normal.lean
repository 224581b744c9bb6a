/-
Normal forms. What `normal?` gives is one (`isNormal_of_normal?`), and a normal
form is its own (`normal?_of_isNormal`), so normalizing again changes nothing
and the normal forms are exactly what comes out (`normal_forms_fixed`). Nor does
it show in the normal form of a condition whether its leaves were replaced by
conditions or by the normal forms of these (`normal?_bind_congr`,
`normal?_of_normal?`).
-/
import VarLogic.Condition.Normal
import Mathlib.Data.List.Basic

namespace VarLogic.Condition

variable {α β : Type}

/-! ## The shape -/

theorem IsNormal.negate {c : Condition α} (h : IsNormal c) : IsNormal c.negate := by
  cases h with
  | leaf a => exact .not (.leaf a) (by simp)
  | and hc hd => exact .not (.and hc hd) (by simp)
  | or hc hd => exact .not (.or hc hd) (by simp)
  | not hc _ => exact hc

theorem isNormal_of_chain? {join : List (Condition α) → Condition α}
    (hj : ∀ {c d}, IsNormal c → IsNormal d → IsNormal (join [c, d])) {cs : List (Condition α)}
    (hcs : ∀ c ∈ cs, IsNormal c) {d : Condition α} (h : chain? join cs = some d) : IsNormal d := by
  induction cs generalizing d with
  | nil => cases h
  | cons c cs ih =>
    have hc := hcs c (by simp)
    rw [chain?] at h
    cases hd : chain? join cs with
    | none =>
      rw [hd] at h
      exact Option.some.inj h ▸ hc
    | some e =>
      rw [hd] at h
      exact Option.some.inj h ▸ hj hc (ih (fun c hm => hcs c (by simp [hm])) hd)

/-- What `normal?` gives is a normal form. -/
theorem isNormal_of_normal? {c d : Condition α} (h : normal? c = some d) : IsNormal d := by
  have members : ∀ {cs : List (Condition α)}, (∀ c ∈ cs, ∀ {d}, normal? c = some d → IsNormal d) →
      ∀ e ∈ normals cs, IsNormal e := by
    intro cs ih e he
    rw [normals_eq_filterMap] at he
    obtain ⟨c, hc, hce⟩ := List.mem_filterMap.1 he
    exact ih c hc hce
  induction c generalizing d with
  | leaf a => exact Option.some.inj h ▸ .leaf a
  | and cs ih => exact isNormal_of_chain? .and (members ih) h
  | or cs ih => exact isNormal_of_chain? .or (members ih) h
  | not c ih =>
    rw [normal?, Option.map_eq_some_iff] at h
    obtain ⟨e, he, rfl⟩ := h
    exact (ih he).negate

theorem negate_of_ne_not {c : Condition α} (h : ∀ d, c ≠ .not d) : c.negate = .not c := by
  cases c with
  | not d => exact absurd rfl (h d)
  | _ => rfl

/-- A normal form is its own normal form. -/
theorem normal?_of_isNormal {c : Condition α} (h : IsNormal c) : normal? c = some c := by
  induction h with
  | leaf a => rfl
  | and _ _ ihc ihd | or _ _ ihc ihd => simp [normal?, normals, ihc, ihd, chain?]
  | not _ hn ih => rw [normal?, ih, Option.map_some, negate_of_ne_not hn]

theorem normal?_of_normal? {c d : Condition α} (h : normal? c = some d) : normal? d = some d :=
  normal?_of_isNormal (isNormal_of_normal? h)

theorem IsNormal.negate_negate {c : Condition α} (h : IsNormal c) : c.negate.negate = c := by
  cases h with
  | not _ hn => exact negate_of_ne_not hn
  | leaf | and | or => rfl

theorem normal?_not_not (c : Condition α) : normal? (.not (.not c)) = normal? c := by
  rw [normal?, normal?, Option.map_map]
  cases hd : normal? c with
  | none => rfl
  | some d => exact congrArg some (isNormal_of_normal? hd).negate_negate

/-- **The normal forms are exactly what normalizing gives**, and exactly what it
leaves as it is. So it does nothing the second time; and a double negation, at
the top as anywhere else, makes no difference. -/
theorem normal_forms_fixed :
    (∀ d : Condition α, (∃ c, normal? c = some d) ↔ IsNormal d) ∧
      (∀ d : Condition α, normal? d = some d ↔ IsNormal d) ∧
      (∀ c : Condition α, (normal? c).bind normal? = normal? c) ∧
      ∀ c : Condition α, normal? (.not (.not c)) = normal? c := by
  have out : ∀ {d : Condition α}, (∃ c, normal? c = some d) → IsNormal d :=
    fun ⟨_, h⟩ => isNormal_of_normal? h
  refine ⟨fun d => ⟨out, fun h => ⟨d, normal?_of_isNormal h⟩⟩,
    fun d => ⟨fun h => out ⟨d, h⟩, normal?_of_isNormal⟩, fun c => ?_, normal?_not_not⟩
  cases hd : normal? c with
  | none => rfl
  | some d => exact normal?_of_normal? hd

-- The inner negation only comes up against the outer one when the list goes.
example : normal? (.not (.and [.or [], .not (.or [.leaf 1, .leaf 2, .and []])])) =
    some (.or [.leaf 1, .leaf 2]) := rfl

/-! ## Substitution -/

/-- Conditions with the same normal forms in place of the leaves. -/
theorem normal?_bind_congr {f g : α → Condition β} {c : Condition α}
    (h : ∀ a ∈ c.leaves, normal? (f a) = normal? (g a)) :
    normal? (c.bind f) = normal? (c.bind g) := by
  have list : ∀ {cs : List (Condition α)}, (∀ a ∈ leavesOf cs, normal? (f a) = normal? (g a)) →
      (∀ c ∈ cs, (∀ a ∈ c.leaves, normal? (f a) = normal? (g a)) →
        normal? (c.bind f) = normal? (c.bind g)) →
      normals (bindAll f cs) = normals (bindAll g cs) := by
    intro cs hl ih
    rw [normals_eq_filterMap, normals_eq_filterMap, bindAll_eq_map, bindAll_eq_map,
      List.filterMap_map, List.filterMap_map]
    rw [leavesOf_eq_flatMap] at hl
    exact List.filterMap_congr fun c hc =>
      ih c hc fun a ha => hl a (List.mem_flatMap.2 ⟨c, hc, ha⟩)
  induction c with
  | leaf a => exact h a (by simp [leaves])
  | and cs ih | or cs ih => rw [bind, bind, normal?, normal?, list h ih]
  | not c ih => rw [bind, bind, normal?, normal?, ih h]

end VarLogic.Condition
