/-
A value text on an element as it is. Whether a toggle is on is read off its
pair: the side `-1` has no value. Where every leaf of a formula has a pair
with exactly one blank side, the value text of the formula stands for the
branch that the toggles select, whatever becomes of the other branch
(`resolve?_valueText_selects`). No normal form is asked for.
-/
import VarLogic.Proofs.Network

namespace VarLogic.Element

variable {e : Element}

/-- **A value text is the branch that its toggles select**, up to blanks: where
the branch has no value there is none, and the other branch does not matter. -/
theorem resolve?_valueText_selects {f : Formula String} (hp : ∀ a ∈ f.leaves, IsPlain a)
    (hd : ∀ a ∈ f.leaves, ∃ on, e.Decides [] a on) {ifTrue ifFalse : String}
    (ht : Balanced ifTrue.toList) (hf : Balanced ifFalse.toList) :
    Padded (e.substitute? [] (f.valueText ifTrue ifFalse).toList)
        (e.substitute? [] (if f.eval e.state then ifTrue else ifFalse).toList) ∧
      e.resolve? (f.valueText ifTrue ifFalse) =
        e.resolve? (if f.eval e.state then ifTrue else ifFalse) := by
  have hleaf : ∀ a ∈ f.asked e.state, e.Decides [] a (e.state a) := fun a ha => by
    obtain ⟨on, hon⟩ := hd a (Formula.mem_leaves_of_asked ha)
    rwa [hon.state_eq]
  have hpadded := substitute?_valueText hp hleaf ht hf
  exact ⟨hpadded, hpadded.map_collapse⟩

/-- `h` is on and `d` is off. -/
def gapElement : Element where
  declared := [("--gap", "2px"), ("--h-1", "initial"), ("--h-0", ""), ("--d-0", "initial"), ("--d-1", "")]

/-- Holds while `h` is on and `d` is off. -/
def mixedFormula : Formula String :=
  .not (.or (.not (.not (.not (.leaf "h")))) (.and (.leaf "d") (.leaf "h")))

theorem resolve?_valueText_selects_gap :
    gapElement.resolve? (mixedFormula.valueText "var(--gap)" "var(--none)") = some "2px" ∧
      gapElement.resolve? (mixedFormula.valueText "var(--none)" "var(--gap)") = none := by
  have hh : gapElement.Decides [] "h" true :=
    settled_pair (by decide) (by decide) [] (by simp)
  have hd : gapElement.Decides [] "d" false :=
    settled_pair (by decide) (by decide) [] (by simp)
  have htrue : mixedFormula.eval gapElement.state = true := by
    simp [mixedFormula, Formula.eval, hh.state_eq, hd.state_eq]
  have hleaves : ∀ a ∈ mixedFormula.leaves, IsPlain a ∧ ∃ on, gapElement.Decides [] a on := by
    simp only [mixedFormula, Formula.leaves, List.mem_append, List.mem_singleton]
    rintro a (rfl | rfl | rfl)
    · exact ⟨by simp [IsPlain, Text.isBlank], true, hh⟩
    · exact ⟨by simp [IsPlain, Text.isBlank], false, hd⟩
    · exact ⟨by simp [IsPlain, Text.isBlank], true, hh⟩
  have hbalanced {name : String} (hn : IsPlain name) :
      Balanced ('v' :: 'a' :: 'r' :: '(' :: (name.toList ++ ')' :: [])) :=
    .cons (by decide) (by decide) (.cons (by decide) (by decide) (.cons (by decide) (by decide)
      (.group hn.balanced .nil)))
  have hplain : IsPlain "--gap" ∧ IsPlain "--none" := by simp [IsPlain, Text.isBlank]
  have hgap : Balanced "var(--gap)".toList := hbalanced hplain.1
  have hnone : Balanced "var(--none)".toList := hbalanced hplain.2
  have hselects {x y : String} (hx : Balanced x.toList) (hy : Balanced y.toList) :=
    (resolve?_valueText_selects (fun a ha => (hleaves a ha).1) (fun a ha => (hleaves a ha).2) hx hy).2
  rw [hselects hgap hnone, hselects hnone hgap, htrue, if_pos rfl, if_pos rfl]
  constructor
  · have hvalue : gapElement.computed? [] "--gap" = some "2px".toList := by
      have hdeclared : gapElement.declared.lookup "--gap" = some "2px" := by decide
      rw [computed?_of_declared (by simp) hdeclared (by decide)]
      exact substitute?_plain (by simp [HasReference, List.infix_cons_iff])
    have htext : gapElement.substitute? [] "var(--gap)".toList = some "2px".toList := by
      refine (substitute?_reference hplain.1 []).trans ?_
      rw [hvalue, substitute?_nil]
      rfl
    rw [resolve?, htext]
    decide
  · have hvalue : gapElement.computed? [] "--none" = none := computed?_of_undeclared (by decide)
    have htext : gapElement.substitute? [] "var(--none)".toList = none := by
      refine (substitute?_reference hplain.2 []).trans ?_
      rw [hvalue, Option.bind_none]
    rw [resolve?, htext, Option.map_none]

end VarLogic.Element
