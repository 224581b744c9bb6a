/-
What the text of a key has in it. Properties have no semicolon in them, so
where two such texts are the same, one begins with the properties of the other
(`terminated_split`). Hooks may have any number of semicolons in them: where the
properties end cannot be told from the text alone.
-/
import VarLogic.Proofs.Scope.Sheet

namespace VarLogic.Sheet

/-- Texts, each with a semicolon behind it. -/
def terminated (texts : List String) : List Char :=
  texts.flatMap fun text => text.toList ++ [';']

@[simp] theorem terminated_nil : terminated [] = [] := rfl

theorem terminated_cons (text : String) (texts : List String) :
    terminated (text :: texts) = text.toList ++ ';' :: terminated texts := by
  simp [terminated]

@[simp] theorem terminated_append (texts more : List String) :
    terminated (texts ++ more) = terminated texts ++ terminated more :=
  List.flatMap_append

@[simp] theorem terminated_eq_nil {texts : List String} : terminated texts = [] ↔ texts = [] := by
  cases texts <;> simp [terminated_cons]

theorem toList_keyText (sheet : Sheet) :
    sheet.keyText.toList =
      terminated (sheet.defaults.map (·.property)) ++ terminated (sheet.rules.map (·.hook.text)) := by
  simp [keyText, terminated, List.flatMap_map]

/-- What stands before the first semicolon can be told from the text. -/
theorem append_cons_inj {c : Char} {p q x y : List Char} (hp : c ∉ p) (hq : c ∉ q)
    (h : p ++ c :: x = q ++ c :: y) : p = q ∧ x = y := by
  induction p generalizing q with
  | nil =>
    cases q with
    | nil => exact ⟨rfl, (List.cons.inj h).2⟩
    | cons e q => exact absurd (by simp [(List.cons.inj h).1]) hq
  | cons d p ih =>
    cases q with
    | nil => exact absurd (by simp [(List.cons.inj h).1]) hp
    | cons e q =>
      obtain ⟨rfl, hrest⟩ := List.cons.inj h
      obtain ⟨rfl, hxy⟩ := ih (fun hm => hp (by simp [hm])) (fun hm => hq (by simp [hm])) hrest
      exact ⟨rfl, hxy⟩

/-- Where properties are followed by something else, the shorter ones are those
that the longer ones begin with. -/
theorem terminated_split {ps qs : List String} {r r' : List Char} (hp : ∀ p ∈ ps, ';' ∉ p.toList)
    (hq : ∀ q ∈ qs, ';' ∉ q.toList) (h : terminated ps ++ r = terminated qs ++ r') :
    (∃ more, qs = ps ++ more ∧ r = terminated more ++ r') ∨
      ∃ more, ps = qs ++ more ∧ r' = terminated more ++ r := by
  induction ps generalizing qs with
  | nil => exact .inl ⟨qs, rfl, h⟩
  | cons p ps ih =>
    cases qs with
    | nil => exact .inr ⟨p :: ps, rfl, h.symm⟩
    | cons q qs =>
      simp only [terminated_cons, List.append_assoc, List.cons_append] at h
      obtain ⟨hpq, hrest⟩ := append_cons_inj (hp p (by simp)) (hq q (by simp)) h
      obtain rfl := String.ext hpq
      rcases ih (fun a ha => hp a (by simp [ha])) (fun a ha => hq a (by simp [ha])) hrest with
        ⟨more, rfl, hmore⟩ | ⟨more, rfl, hmore⟩
      · exact .inl ⟨more, rfl, hmore⟩
      · exact .inr ⟨more, rfl, hmore⟩

/-- Texts cannot be the same as themselves with more behind them, whatever stands
in front. -/
theorem eq_nil_of_terminated {texts more extra : List String}
    (h : terminated texts = terminated more ++ terminated (texts ++ extra)) : extra = [] := by
  have hlength := congrArg List.length h
  simp only [terminated_append, List.length_append] at hlength
  exact terminated_eq_nil.1 (List.eq_nil_of_length_eq_zero (by omega))

end VarLogic.Sheet
