/-
Regrouping does not show in value texts. A formula uses its branches as texts
only, and two formulas that one law makes of each other use them in the same
places, whatever the texts are; so the law can be used anywhere inside a formula
(`Regrouped.valueText_eq`). The formula of a negated condition has a negation more
or less in front (`lower?_negate`), which is regrouping as well: its text is that
of the condition with the branches swapped.
-/
import VarLogic.Formula.Regrouping
import VarLogic.Proofs.Condition.Leaves
import VarLogic.Proofs.Condition.Normal

namespace VarLogic.Formula

theorem Regrouped.valueText_eq {f g : Formula String} (h : Regrouped f g)
    (ifTrue ifFalse : String) : f.valueText ifTrue ifFalse = g.valueText ifTrue ifFalse := by
  induction h generalizing ifTrue ifFalse with
  | refl f => rfl
  | symm _ ih => exact (ih ifTrue ifFalse).symm
  | trans _ _ ih ih' => exact (ih ifTrue ifFalse).trans (ih' ifTrue ifFalse)
  | and _ _ ihl ihr => rw [valueText, valueText, ihr, ihl]
  | or _ _ ihl ihr => rw [valueText, valueText, ihr, ihl]
  | not _ ih => exact ih ifFalse ifTrue
  -- Both sides of a law nest the texts of the same leaves in the same branches.
  | notNot f => rfl
  | notAnd f g => rfl
  | notOr f g => rfl
  | andAssoc f g h => rfl
  | orAssoc f g h => rfl

/-! ## Negated conditions -/

theorem lower?_negate {α : Type} {d : Condition α} {f : Formula α} (h : lower? d = some f) :
    ∃ g, lower? d.negate = some g ∧ Regrouped g (.not f) := by
  by_cases hn : ∃ e, d = .not e
  · obtain ⟨e, rfl⟩ := hn
    obtain ⟨g, hg, rfl⟩ := Option.map_eq_some_iff.1 h
    exact ⟨g, hg, (Regrouped.notNot g).symm⟩
  · have hne : ∀ e, d ≠ .not e := fun e he => hn ⟨e, he⟩
    refine ⟨.not f, ?_, .refl _⟩
    rw [Condition.negate_of_ne_not hne, lower?, h, Option.map_some]

/-- A negated condition has the negated formula, regrouped. -/
theorem ofCondition?_not {α : Type} {c : Condition α} {f : Formula α}
    (h : ofCondition? c = some f) : ∃ g, ofCondition? (.not c) = some g ∧ Regrouped g (.not f) := by
  obtain ⟨d, hd, hf⟩ := Option.bind_eq_some_iff.1 h
  obtain ⟨g, hg, hregrouped⟩ := lower?_negate hf
  refine ⟨g, ?_, hregrouped⟩
  rw [ofCondition?, Condition.normal?, hd, Option.map_some, Option.bind_some, hg]

/-- **Value texts do not tell regrouped formulas apart**, whatever the branches
are. A condition that has a leaf has the text of its negation with the branches
swapped. -/
theorem valueText_regrouped :
    (∀ f g : Formula String, Regrouped f g →
      ∀ ifTrue ifFalse, f.valueText ifTrue ifFalse = g.valueText ifTrue ifFalse) ∧
    ∀ c : Condition String, c.leaves ≠ [] → ∃ f g,
      ofCondition? c = some f ∧ ofCondition? (.not c) = some g ∧
        ∀ ifTrue ifFalse, g.valueText ifTrue ifFalse = f.valueText ifFalse ifTrue := by
  refine ⟨fun f g h => h.valueText_eq, fun c hc => ?_⟩
  obtain ⟨f, hf⟩ := Option.ne_none_iff_exists'.1 (mt Condition.ofCondition?_eq_none.1 hc)
  obtain ⟨g, hg, hregrouped⟩ := ofCondition?_not hf
  exact ⟨f, g, hf, hg, hregrouped.valueText_eq⟩

/-- A law used under a negation, and the two formulas of `not (not (a and b))`. -/
theorem valueText_regrouped_inside :
    (Formula.valueText (.or (.leaf "a") (.not (.and (.leaf "b") (.not (.leaf "c"))))) "T" "F" =
      Formula.valueText (.or (.leaf "a") (.or (.not (.leaf "b")) (.leaf "c"))) "T" "F") ∧
    ∃ f g, ofCondition? (.not (.and [.leaf "a", .leaf "b"])) = some f ∧
      ofCondition? (.not (.not (.and [.leaf "a", .leaf "b"]))) = some g ∧
        g.valueText "T" "F" = f.valueText "F" "T" := by
  have hregrouped : Regrouped
      (.or (.leaf "a") (.not (.and (.leaf "b") (.not (.leaf "c")))))
      (.or (.leaf "a") (.or (.not (.leaf "b")) (.leaf "c"))) :=
    .or (.refl _) (.trans (.notAnd _ _) (.or (.refl _) (.notNot _)))
  obtain ⟨hlaws, hnot⟩ := valueText_regrouped
  obtain ⟨f, g, hf, hg, h⟩ := hnot (.not (.and [.leaf "a", .leaf "b"])) (by decide)
  exact ⟨hlaws _ _ hregrouped "T" "F", f, g, hf, hg, h "T" "F"⟩

end VarLogic.Formula
