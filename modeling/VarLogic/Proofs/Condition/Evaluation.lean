/-
Evaluating what a condition was made into. In a normal form nothing is left out,
so that it has the truth value it has as it stands (`truth?_of_isNormal`). What a
condition means can therefore be found by evaluating its normal form, or its
formula, where there is one; and there is one as soon as the condition has a leaf
(`meaning_kept`).
-/
import VarLogic.Proofs.Condition.Leaves
import VarLogic.Proofs.Condition.Normal

namespace VarLogic.Condition

variable {α : Type} {holds : α → Bool}

theorem truth?_of_isNormal {d : Condition α} (h : IsNormal d) :
    truth? holds d = some (d.eval holds) := by
  induction h with
  | leaf a => rfl
  | and _ _ ihc ihd => simp [truth?, truths, ihc, ihd, eval, evalAll]
  | or _ _ ihc ihd => simp [truth?, truths, ihc, ihd, eval, evalAny]
  | not _ _ ih => simp [truth?, ih, eval]

theorem map_eval_normal? (c : Condition α) : (normal? c).map (eval holds) = truth? holds c := by
  rw [← truth?_normal?]
  cases hd : normal? c with
  | none => rfl
  | some d => rw [Option.map_some, Option.bind_some, truth?_of_isNormal (isNormal_of_normal? hd)]

/-- **Normal forms and formulas mean what their conditions do.** Evaluated as they
stand, they give the truth value of the condition, which leaves out what has no
leaf; and there is none only of a condition without any leaf. -/
theorem meaning_kept (holds : α → Bool) (c : Condition α) :
    (normal? c).map (eval holds) = truth? holds c ∧
      (Formula.ofCondition? c).map (Formula.eval holds) = truth? holds c ∧
      (normal? c = none ↔ c.leaves = []) ∧ (Formula.ofCondition? c = none ↔ c.leaves = []) :=
  ⟨map_eval_normal? c, (truth?_eq_eval c).symm, normal?_eq_none, ofCondition?_eq_none⟩

end VarLogic.Condition
