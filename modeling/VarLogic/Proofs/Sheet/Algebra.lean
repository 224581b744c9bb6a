/-
The algebra of merging. A sheet is merged into another by adding what is new to it,
property by property and rule by rule, so the laws of adding are those of merging:
it is associative, and merging again changes nothing (`merge_laws`).
-/
import VarLogic.Proofs.Sheet.Merging

namespace VarLogic.Sheet

theorem merge_assoc (a b c : Sheet) : (a.merge b).merge c = a.merge (b.merge c) := by
  simp only [merge_eq, addAll_assoc]

/-- A sheet adds nothing where its properties are declared and its rules are there. -/
theorem merge_of_subset {a b : Sheet}
    (hd : ∀ d ∈ b.defaults, d.property ∈ a.defaults.map (·.property))
    (hr : ∀ r ∈ b.rules, r ∈ a.rules) : a.merge b = a := by
  have hr' : ∀ r ∈ b.rules, id r ∈ a.rules.map id := by simpa using hr
  rw [merge_eq, addAll_of_subset hd, addAll_of_subset hr']

theorem mem_properties_merge {a b : Sheet} {p : String} :
    p ∈ (a.merge b).defaults.map (·.property) ↔
      p ∈ a.defaults.map (·.property) ∨ p ∈ b.defaults.map (·.property) := by
  rw [merge_eq, mem_keys_addAll]

theorem mem_rules_merge {a b : Sheet} {r : Rule} :
    r ∈ (a.merge b).rules ↔ r ∈ a.rules ∨ r ∈ b.rules :=
  mem_foldl_mergeRule

/-- **The laws of merging**, for any sheets, with or without repetitions. Merging is
associative. A sheet merged into itself, or a second time, changes nothing. What
was there stays in front, and what is added comes from the other sheet, in its
order. The properties declared are those of both sheets, and so are the rules. And
nothing is repeated that the sheet itself does not repeat. -/
theorem merge_laws (a b c : Sheet) :
    (a.merge b).merge c = a.merge (b.merge c) ∧
      a.merge a = a ∧ (a.merge b).merge b = a.merge b ∧
      (a.defaults <+: (a.merge b).defaults ∧ a.rules <+: (a.merge b).rules) ∧
      ((a.merge b).defaults.Sublist (a.defaults ++ b.defaults) ∧
        (a.merge b).rules.Sublist (a.rules ++ b.rules)) ∧
      (∀ p, p ∈ (a.merge b).defaults.map (·.property) ↔
        p ∈ a.defaults.map (·.property) ∨ p ∈ b.defaults.map (·.property)) ∧
      (∀ r, r ∈ (a.merge b).rules ↔ r ∈ a.rules ∨ r ∈ b.rules) ∧
      ((a.defaults.map (·.property)).Nodup → ((a.merge b).defaults.map (·.property)).Nodup) ∧
      (a.rules.Nodup → (a.merge b).rules.Nodup) := by
  refine ⟨merge_assoc a b c, ?_, ?_, ?_, ?_, fun p => mem_properties_merge,
    fun r => mem_rules_merge, ?_, ?_⟩
  · exact merge_of_subset (fun d hd => List.mem_map_of_mem hd) fun r hr => hr
  · refine merge_of_subset (fun d hd => ?_) fun r hr => mem_rules_merge.2 (.inr hr)
    exact mem_properties_merge.2 (.inr (List.mem_map_of_mem hd))
  · rw [merge_eq]
    exact ⟨prefix_addAll _ _, prefix_addAll _ _⟩
  · rw [merge_eq]
    exact ⟨sublist_addAll _ _, sublist_addAll _ _⟩
  · intro h
    rw [merge_eq]
    exact nodup_keys_addAll h _
  · intro h
    rw [merge_eq]
    have hkeys : (a.rules.map id).Nodup := by rwa [List.map_id]
    simpa only [List.map_id] using nodup_keys_addAll hkeys b.rules

/-- A focused element has a pair and a rule. -/
def focusSheet : Sheet := empty.addHook (.selector "&:focus") "f"

/-- The same hook comes twice, so two properties and a rule are repeated. -/
def repeatedSheet : Sheet :=
  (empty.addHook (.selector "&:hover") "h").addHook (.selector "&:hover") "h"

/-- What a sheet repeats is merged once, and what it repeats itself stays. -/
theorem merge_laws_repeated :
    (focusSheet.defaults.map (·.property)).Nodup ∧ focusSheet.rules.Nodup ∧
      ¬ repeatedSheet.rules.Nodup ∧
      ((focusSheet.merge repeatedSheet).defaults.map (·.property)).Nodup ∧
      (focusSheet.merge repeatedSheet).rules.Nodup ∧
      (focusSheet.merge repeatedSheet).rules.length = 2 ∧
      (repeatedSheet.merge focusSheet).rules.length = 3 := by
  have hproperties : (focusSheet.defaults.map (·.property)).Nodup := by decide
  have hrules : focusSheet.rules.Nodup := by decide
  obtain ⟨-, -, -, -, -, -, -, hd, hr⟩ := merge_laws focusSheet repeatedSheet .empty
  exact ⟨hproperties, hrules, by decide, hd hproperties, hr hrules, by decide, by decide⟩

end VarLogic.Sheet
