/-
Adding what is new. Both parts of a sheet are merged alike: what comes in is added at
the end unless something with its key is there by then, be it added just before
(`addNew`). The key of a declaration is its property (`mergeDefault_eq`), and that of
a rule is the rule itself (`mergeRule_eq`). Adding to what is added is adding to it as
a whole (`addAll_addNew`), so adding is associative; what has its key there already
adds nothing (`addAll_of_subset`), and what repeats no key is all added
(`addAll_of_nodup`).
-/
import VarLogic.Sheet.Basic
import Mathlib.Data.List.Induction
import Mathlib.Data.List.Nodup

namespace VarLogic.Sheet

section

variable {α κ : Type} [DecidableEq κ] {key : α → κ}

/-- Adds a member unless one with its key is there. -/
def addNew (key : α → κ) (xs : List α) (x : α) : List α :=
  if key x ∈ xs.map key then xs else xs ++ [x]

/-- Adds members one after the other. -/
def addAll (key : α → κ) (xs ys : List α) : List α := ys.foldl (addNew key) xs

theorem addNew_of_mem {xs : List α} {x : α} (h : key x ∈ xs.map key) : addNew key xs x = xs :=
  if_pos h

theorem addNew_of_not_mem {xs : List α} {x : α} (h : key x ∉ xs.map key) :
    addNew key xs x = xs ++ [x] :=
  if_neg h

theorem addAll_concat (xs ys : List α) (y : α) :
    addAll key xs (ys ++ [y]) = addNew key (addAll key xs ys) y :=
  List.foldl_concat ..

theorem mem_keys_addNew {xs : List α} {x : α} {k : κ} :
    k ∈ (addNew key xs x).map key ↔ k ∈ xs.map key ∨ k = key x := by
  by_cases hx : key x ∈ xs.map key
  · rw [addNew_of_mem hx, or_iff_left_of_imp]
    rintro rfl
    exact hx
  · simp [addNew_of_not_mem hx]

/-- The keys are those of both. -/
theorem mem_keys_addAll {xs ys : List α} {k : κ} :
    k ∈ (addAll key xs ys).map key ↔ k ∈ xs.map key ∨ k ∈ ys.map key := by
  induction ys using List.reverseRecOn with
  | nil => simp [addAll]
  | append_singleton ys y ih =>
    rw [addAll_concat, mem_keys_addNew, ih, List.map_append, List.mem_append, or_assoc,
      List.map_singleton, List.mem_singleton]

theorem prefix_addAll (xs ys : List α) : xs <+: addAll key xs ys := by
  induction ys using List.reverseRecOn with
  | nil => exact List.prefix_rfl
  | append_singleton ys y ih =>
    rw [addAll_concat, addNew]
    split
    · exact ih
    · exact ih.trans (List.prefix_append _ _)

/-- What is added keeps its order. -/
theorem sublist_addAll (xs ys : List α) : (addAll key xs ys).Sublist (xs ++ ys) := by
  induction ys using List.reverseRecOn with
  | nil => simp [addAll]
  | append_singleton ys y ih =>
    rw [addAll_concat, addNew, ← List.append_assoc]
    split
    · exact ih.trans (List.sublist_append_left _ _)
    · exact ih.append_right [y]

/-- Nothing is added where all keys are there. -/
theorem addAll_of_subset {xs ys : List α} (h : ∀ y ∈ ys, key y ∈ xs.map key) :
    addAll key xs ys = xs := by
  induction ys with
  | nil => rfl
  | cons y ys ih =>
    rw [List.forall_mem_cons] at h
    rw [addAll, List.foldl_cons, addNew_of_mem h.1]
    exact ih h.2

/-- All is added where no key comes twice. -/
theorem addAll_of_nodup {xs ys : List α} (h : ((xs ++ ys).map key).Nodup) :
    addAll key xs ys = xs ++ ys := by
  induction ys generalizing xs with
  | nil => exact (List.append_nil xs).symm
  | cons y ys ih =>
    have hy : key y ∉ xs.map key := by
      intro hm
      rw [List.map_append, List.nodup_append] at h
      exact h.2.2 (key y) hm (key y) (by simp) rfl
    rw [List.append_cons] at h ⊢
    rw [addAll, List.foldl_cons, addNew_of_not_mem hy]
    exact ih h

/-- A member added to what is to be added comes last, or is there by then. -/
theorem addAll_addNew (xs ys : List α) (z : α) :
    addAll key xs (addNew key ys z) = addNew key (addAll key xs ys) z := by
  by_cases hz : key z ∈ ys.map key
  · rw [addNew_of_mem hz, addNew_of_mem (mem_keys_addAll.2 (.inr hz))]
  · rw [addNew_of_not_mem hz, addAll_concat]

/-- **Adding is associative.** -/
theorem addAll_assoc (xs ys zs : List α) :
    addAll key (addAll key xs ys) zs = addAll key xs (addAll key ys zs) := by
  induction zs using List.reverseRecOn with
  | nil => rfl
  | append_singleton zs z ih => rw [addAll_concat, addAll_concat, addAll_addNew, ih]

/-- No key comes twice if none was there twice, even if what is added repeats some. -/
theorem nodup_keys_addAll {xs : List α} (h : (xs.map key).Nodup) (ys : List α) :
    ((addAll key xs ys).map key).Nodup := by
  induction ys using List.reverseRecOn with
  | nil => exact h
  | append_singleton ys y ih =>
    rw [addAll_concat, addNew]
    split
    · exact ih
    · rename_i hy
      rw [List.map_append, List.map_singleton, ← List.concat_eq_append]
      exact .concat hy ih

end

/-! ## The parts of a sheet -/

theorem mergeDefault_eq : mergeDefault = addNew (·.property) := by
  funext ds d
  have hany : (ds.any (·.property = d.property) = true) = (d.property ∈ ds.map (·.property)) := by
    simp
  simp only [mergeDefault, addNew, hany]

theorem mergeRule_eq : mergeRule = addNew id := by
  funext rules r
  rw [mergeRule, addNew, List.map_id, id]

theorem merge_eq (a b : Sheet) :
    a.merge b = ⟨addAll (·.property) a.defaults b.defaults, addAll id a.rules b.rules⟩ := by
  rw [merge, mergeDefault_eq, mergeRule_eq, addAll, addAll]

end VarLogic.Sheet
