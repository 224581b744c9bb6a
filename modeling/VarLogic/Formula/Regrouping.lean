/-
Formulas that are the same but for their grouping: double negations, negations
moved through `and` and `or`, and chains nested to the other side, anywhere
inside.
-/
import VarLogic.Formula

namespace VarLogic.Formula

/-- The least congruence with these laws. -/
inductive Regrouped {α : Type} : Formula α → Formula α → Prop where
  | refl (f : Formula α) : Regrouped f f
  | symm {f g : Formula α} : Regrouped f g → Regrouped g f
  | trans {f g h : Formula α} : Regrouped f g → Regrouped g h → Regrouped f h
  | and {f f' g g' : Formula α} : Regrouped f f' → Regrouped g g' → Regrouped (.and f g) (.and f' g')
  | or {f f' g g' : Formula α} : Regrouped f f' → Regrouped g g' → Regrouped (.or f g) (.or f' g')
  | not {f f' : Formula α} : Regrouped f f' → Regrouped (.not f) (.not f')
  | notNot (f : Formula α) : Regrouped (.not (.not f)) f
  | notAnd (f g : Formula α) : Regrouped (.not (.and f g)) (.or (.not f) (.not g))
  | notOr (f g : Formula α) : Regrouped (.not (.or f g)) (.and (.not f) (.not g))
  | andAssoc (f g h : Formula α) : Regrouped (.and (.and f g) h) (.and f (.and g h))
  | orAssoc (f g h : Formula α) : Regrouped (.or (.or f g) h) (.or f (.or g h))

end VarLogic.Formula
