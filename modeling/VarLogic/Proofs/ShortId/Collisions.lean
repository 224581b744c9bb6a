/-
Which texts have one id. An id is the form of a hash, with an `a` in front if the
form starts with a digit; but a form can start with an `a` of its own. So two
hashes have one id where they are the same, or where the form of one starts with a
digit and that of the other is the same with an `a` in front (`ofText_eq_iff`).
The second case does arise: the hashes 0 and 360 both give `a0`, and a text can
have the id of its own quotation (`not_fold_eq_of_ofText_eq`).
-/
import VarLogic.Proofs.ShortId.Numeral

namespace VarLogic.ShortId

/-- The first form gets the letter that the second one has of its own. -/
def IsLetteredAs (digits others : List Char) : Prop :=
  startsWithDigit digits = true ∧ others = 'a' :: digits

/-- A form with the letter in front gets no second one. -/
theorem IsLetteredAs.lettered_eq {digits others : List Char} (h : IsLetteredAs digits others) :
    lettered digits = lettered others := by
  obtain ⟨hdigit, rfl⟩ := h
  rw [ShortId.lettered_eq, if_pos hdigit]
  rfl

theorem lettered_eq_lettered_iff {digits others : List Char} :
    lettered digits = lettered others ↔
      digits = others ∨ IsLetteredAs digits others ∨ IsLetteredAs others digits := by
  constructor
  · intro h
    rw [lettered_eq, lettered_eq] at h
    by_cases hd : startsWithDigit digits = true
    · rw [if_pos hd] at h
      by_cases ho : startsWithDigit others = true
      · rw [if_pos ho] at h
        exact .inl (List.cons.inj h).2
      · rw [if_neg ho] at h
        exact .inr (.inl ⟨hd, h.symm⟩)
    · rw [if_neg hd] at h
      by_cases ho : startsWithDigit others = true
      · rw [if_pos ho] at h
        exact .inr (.inr ⟨ho, h⟩)
      · rw [if_neg ho] at h
        exact .inl h
  · rintro (rfl | h | h)
    · rfl
    · exact h.lettered_eq
    · exact h.lettered_eq.symm

/-- **Texts with one id** have one hash, or the base-36 form of one hash starts with
a digit and that of the other is the same with an `a` in front. -/
theorem ofText_eq_iff (s t : String) :
    ofText s = ofText t ↔
      fold s = fold t ∨
        IsLetteredAs (base36 (fold s).toNat) (base36 (fold t).toNat) ∨
        IsLetteredAs (base36 (fold t).toNat) (base36 (fold s).toNat) := by
  rw [ofText, ofText, String.ofList_inj, lettered_eq_lettered_iff, base36_inj, UInt32.toNat_inj]

/-- One id, two hashes: the form of the first is `2vva8`, which gets a letter in
front, and that of the second is `a2vva8`. -/
theorem not_fold_eq_of_ofText_eq : ¬ ∀ s t : String, ofText s = ofText t → fold s = fold t := by
  intro h
  have hid : ofText "&.row-1465882775" = ofText "\"&.row-1465882775\"" := by decide +kernel
  exact absurd (h _ _ hid) (by decide)

end VarLogic.ShortId
