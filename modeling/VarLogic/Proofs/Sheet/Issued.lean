/-
What a document has been given. A sheet is withheld if it is empty or its key is
one of a sheet that was handed out (`insert_eq_none`), and after any number of
sheets the keys are those of the ones with content (`mem_keys_insertAll`).
-/
import VarLogic.Sheet.Issued

namespace VarLogic.Issued

variable {issued : Issued} {sheet : Sheet} {layout : Layout} {key : String}

theorem insert_of_withheld (h : sheet.isEmpty = true ∨ sheet.key ∈ issued.keys) :
    issued.insert sheet layout = (none, issued) := by
  rw [insert, if_pos]
  simpa [contains] using h

theorem insert_of_new (hs : sheet.isEmpty = false) (hk : sheet.key ∉ issued.keys) :
    issued.insert sheet layout = (some (sheet.render layout), ⟨issued.keys ++ [sheet.key]⟩) := by
  rw [insert, if_neg]
  simp [contains, hs, hk]

theorem insert_eq_none :
    (issued.insert sheet layout).1 = none ↔ sheet.isEmpty = true ∨ sheet.key ∈ issued.keys := by
  unfold insert
  split <;> simp_all [contains]

theorem insert_eq_some {css : String} : (issued.insert sheet layout).1 = some css ↔
    (sheet.isEmpty = false ∧ sheet.key ∉ issued.keys) ∧ css = sheet.render layout := by
  by_cases h : sheet.isEmpty = true ∨ sheet.key ∈ issued.keys
  · rw [insert_of_withheld h]
    grind
  · rw [not_or, Bool.not_eq_true] at h
    rw [insert_of_new h.1 h.2, Option.some.injEq, and_iff_right h, eq_comm]

theorem mem_keys_insert : key ∈ (issued.insert sheet layout).2.keys ↔
    key ∈ issued.keys ∨ sheet.isEmpty = false ∧ sheet.key = key := by
  unfold insert
  cases hempty : sheet.isEmpty with
  | true => simp
  | false =>
    by_cases hkey : sheet.key ∈ issued.keys
    · simp only [contains, List.contains_eq_mem, hkey, decide_true, Bool.or_true, if_true]
      grind
    · simp [contains, hkey, eq_comm]

/-- Hands out sheets one after the other. -/
def insertAll (issued : Issued) (sheets : List (Sheet × Layout)) : Issued :=
  sheets.foldl (fun issued p => (issued.insert p.1 p.2).2) issued

theorem mem_keys_insertAll {sheets : List (Sheet × Layout)} :
    key ∈ (issued.insertAll sheets).keys ↔
      key ∈ issued.keys ∨ ∃ p ∈ sheets, p.1.isEmpty = false ∧ p.1.key = key := by
  induction sheets generalizing issued with
  | nil => simp [insertAll]
  | cons p sheets ih =>
    change key ∈ ((issued.insert p.1 p.2).2.insertAll sheets).keys ↔ _
    simp only [ih, mem_keys_insert, List.mem_cons, exists_eq_or_imp, or_assoc]

/-- What keeps a sheet from being handed out has its key. -/
theorem key_eq_of_withheld {other : Sheet} {layout' : Layout} {before after : List (Sheet × Layout)}
    (h : ((issued.insertAll (before ++ after)).insert sheet layout).1 ≠ none)
    (hother :
      ((issued.insertAll (before ++ (other, layout') :: after)).insert sheet layout).1 = none) :
    other.key = sheet.key := by
  simp only [ne_eq, insert_eq_none, mem_keys_insertAll, List.mem_append, List.mem_cons] at h hother
  grind

end VarLogic.Issued
