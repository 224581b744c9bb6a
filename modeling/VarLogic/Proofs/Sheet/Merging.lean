/-
Sheets merged into one. Whatever the order of the sheets and however often one
comes, the merged sheet has the rules of all (`mem_rules_mergeAll`), and its `*`
block declares the properties of all, each as a sheet declares it. Where sheets
agree on the properties they share, it has the declarations of all
(`mem_defaults_mergeAll`).
-/
import VarLogic.Proofs.Sheet.Adding

namespace VarLogic.Sheet

/-- All sheets, merged one after the other into an empty one. -/
def mergeAll (sheets : List Sheet) : Sheet := sheets.foldl merge empty

/-! ## Rules -/

theorem mem_foldl_mergeRule {rules xs : List Rule} {r : Rule} :
    r ∈ xs.foldl mergeRule rules ↔ r ∈ rules ∨ r ∈ xs := by
  have h : r ∈ (addAll id rules xs).map id ↔ r ∈ rules.map id ∨ r ∈ xs.map id := mem_keys_addAll
  simpa only [mergeRule_eq, addAll, List.map_id] using h

theorem mem_rules_foldl_merge {sheet : Sheet} {sheets : List Sheet} {r : Rule} :
    r ∈ (sheets.foldl merge sheet).rules ↔ r ∈ sheet.rules ∨ r ∈ sheets.flatMap (·.rules) := by
  induction sheets generalizing sheet with
  | nil => simp
  | cons other sheets ih =>
    rw [List.foldl_cons, ih, merge, mem_foldl_mergeRule, List.flatMap_cons, List.mem_append, or_assoc]

/-- The merged sheet has the rules of all sheets. -/
theorem mem_rules_mergeAll {sheets : List Sheet} {r : Rule} :
    r ∈ (mergeAll sheets).rules ↔ r ∈ sheets.flatMap (·.rules) := by
  simp [mergeAll, mem_rules_foldl_merge, empty]

/-! ## The `*` block -/

theorem mergeDefault_of_mem {ds : List Declaration} {d : Declaration}
    (h : d.property ∈ ds.map (·.property)) : mergeDefault ds d = ds := by
  rw [mergeDefault_eq, addNew_of_mem h]

theorem mergeDefault_of_not_mem {ds : List Declaration} {d : Declaration}
    (h : d.property ∉ ds.map (·.property)) : mergeDefault ds d = ds ++ [d] := by
  rw [mergeDefault_eq, addNew_of_not_mem h]

/-- Where properties are declared alike, nothing is lost. -/
theorem mem_mergeDefault {ds : List Declaration} {x : Declaration}
    (h : ∀ d ∈ ds, d.property = x.property → d = x) {d : Declaration} :
    d ∈ mergeDefault ds x ↔ d ∈ ds ∨ d = x := by
  by_cases hx : x.property ∈ ds.map (·.property)
  · obtain ⟨d', hd', he⟩ := List.mem_map.1 hx
    rw [mergeDefault_of_mem hx]
    exact ⟨.inl, fun hd => hd.elim id fun hdx => hdx ▸ h d' hd' he ▸ hd'⟩
  · simp [mergeDefault_of_not_mem hx]

/-- No property has two different declarations. -/
def Consistent (ds : List Declaration) : Prop :=
  ∀ d ∈ ds, ∀ d' ∈ ds, d.property = d'.property → d = d'

theorem mem_foldl_mergeDefault {ds xs : List Declaration} (h : Consistent (ds ++ xs))
    {d : Declaration} : d ∈ xs.foldl mergeDefault ds ↔ d ∈ ds ∨ d ∈ xs := by
  induction xs generalizing ds with
  | nil => simp
  | cons x xs ih =>
    have hx : ∀ {d}, d ∈ mergeDefault ds x ↔ d ∈ ds ∨ d = x :=
      mem_mergeDefault fun d hd => h d (by simp [hd]) x (by simp)
    have hmem : ∀ {d}, d ∈ mergeDefault ds x ++ xs ↔ d ∈ ds ++ x :: xs := by
      intro d
      rw [List.mem_append, hx, List.mem_append, List.mem_cons, or_assoc]
    have hxs : Consistent (mergeDefault ds x ++ xs) := fun d hd d' hd' =>
      h d (hmem.1 hd) d' (hmem.1 hd')
    rw [List.foldl_cons, ih hxs, hx, List.mem_cons, or_assoc]

theorem mem_defaults_foldl_merge {sheet : Sheet} {sheets : List Sheet}
    (h : Consistent ((sheet :: sheets).flatMap (·.defaults))) {d : Declaration} :
    d ∈ (sheets.foldl merge sheet).defaults ↔
      d ∈ sheet.defaults ∨ d ∈ sheets.flatMap (·.defaults) := by
  induction sheets generalizing sheet with
  | nil => simp
  | cons other sheets ih =>
    simp only [List.flatMap_cons, ← List.append_assoc] at h
    have hfront : Consistent (sheet.defaults ++ other.defaults) := fun d hd d' hd' =>
      h d (List.mem_append_left _ hd) d' (List.mem_append_left _ hd')
    have hmerge : ∀ {d}, d ∈ (sheet.merge other).defaults ↔ d ∈ sheet.defaults ++ other.defaults := by
      intro d
      rw [merge, mem_foldl_mergeDefault hfront, List.mem_append]
    have hrest : Consistent ((sheet.merge other :: sheets).flatMap (·.defaults)) := by
      have hmem : ∀ d ∈ (sheet.merge other :: sheets).flatMap (·.defaults),
          d ∈ sheet.defaults ++ other.defaults ++ sheets.flatMap (·.defaults) := fun d hd => by
        rw [List.flatMap_cons, List.mem_append] at hd
        exact List.mem_append.2 (hd.imp_left hmerge.1)
      exact fun d hd d' hd' => h d (hmem d hd) d' (hmem d' hd')
    rw [List.foldl_cons, ih hrest, hmerge, List.mem_append, List.flatMap_cons, List.mem_append,
      or_assoc]

/-- **Sheets that agree on the properties they share lose nothing in merging**,
whatever their order and however often they come. -/
theorem mem_defaults_mergeAll {sheets : List Sheet} (h : Consistent (sheets.flatMap (·.defaults)))
    {d : Declaration} :
    d ∈ (mergeAll sheets).defaults ↔ d ∈ sheets.flatMap (·.defaults) := by
  have hempty : Consistent ((empty :: sheets).flatMap (·.defaults)) := by simpa [empty] using h
  rw [mergeAll, mem_defaults_foldl_merge hempty]
  simp [empty]

end VarLogic.Sheet
