/-
Normal forms and formulas keep the truth value of a condition: what has none
is left out on the way, and a list joined two by two is true where the list
is (`truth?_normal?`, `truth?_eq_eval`). What a substitution makes of a
condition is decided by what its images are (`truth?_bind_congr`).
-/
import VarLogic.Condition.Meaning
import VarLogic.Formula
import Mathlib.Data.List.Basic

namespace VarLogic.Condition

variable {α β γ : Type} {holds : α → Bool}

/-! ## Lists -/

/-- The truth value of a list from those of its members, if it has any. -/
def combine? (op : List Bool → Bool) : List Bool → Option Bool
  | [] => none
  | values => some (op values)

/-- An operator on lists that may be applied two by two, from the right. -/
structure Folds (op : List Bool → Bool) : Prop where
  one : ∀ b, op [b] = b
  more : ∀ b c values, op (b :: c :: values) = op [b, op (c :: values)]

theorem folds_all : Folds (·.all id) := ⟨by simp, by simp⟩

theorem folds_any : Folds (·.any id) := ⟨by simp, by simp⟩

theorem truth?_and (cs : List (Condition α)) :
    truth? holds (.and cs) = combine? (·.all id) (cs.filterMap (truth? holds)) := by
  rw [truth?, truths_eq_filterMap]
  cases cs.filterMap (truth? holds) <;> rfl

theorem truth?_or (cs : List (Condition α)) :
    truth? holds (.or cs) = combine? (·.any id) (cs.filterMap (truth? holds)) := by
  rw [truth?, truths_eq_filterMap]
  cases cs.filterMap (truth? holds) <;> rfl

theorem isSome_chain?_cons (join : List (Condition α) → Condition α) (c : Condition α)
    (cs : List (Condition α)) : (chain? join (c :: cs)).isSome := by
  rw [chain?]
  cases chain? join cs <;> rfl

/-- Joining two by two keeps the truth value of a list whose members all have
one. -/
theorem truth?_chain? {join : List (Condition α) → Condition α} {op : List Bool → Bool}
    (hop : Folds op)
    (hj : ∀ cs, truth? holds (join cs) = combine? op (cs.filterMap (truth? holds))) :
    ∀ {cs : List (Condition α)}, (∀ c ∈ cs, (truth? holds c).isSome) →
      (chain? join cs).bind (truth? holds) = combine? op (cs.filterMap (truth? holds))
  | [], _ => rfl
  | [c], h => by
    obtain ⟨b, hb⟩ := Option.isSome_iff_exists.1 (h c (by simp))
    simp [chain?, combine?, hb, hop.one]
  | c :: d :: cs, h => by
    obtain ⟨b, hb⟩ := Option.isSome_iff_exists.1 (h c (by simp))
    obtain ⟨v, hv⟩ := Option.isSome_iff_exists.1 (h d (by simp))
    obtain ⟨e, he⟩ := Option.isSome_iff_exists.1 (isSome_chain?_cons join d cs)
    have ih : (chain? join (d :: cs)).bind (truth? holds) = _ :=
      truth?_chain? hop hj fun d' hd => h d' (by simp [hd])
    rw [he, Option.bind_some] at ih
    simp only [chain?] at he ⊢
    rw [he]
    simp only [List.filterMap_cons, hv, combine?] at ih
    simp [hj, hb, hv, ih, combine?, hop.more b v]

/-! ## Normal forms -/

theorem truth?_negate (c : Condition α) :
    truth? holds c.negate = (truth? holds c).map Bool.not := by
  cases c with
  | not c => cases h : truth? holds c <;> simp [negate, truth?, h]
  | _ => rfl

theorem filterMap_truth?_normals {cs : List (Condition α)}
    (ih : ∀ c ∈ cs, (normal? c).bind (truth? holds) = truth? holds c) :
    (normals cs).filterMap (truth? holds) = cs.filterMap (truth? holds) := by
  rw [normals_eq_filterMap, List.filterMap_filterMap]
  exact List.filterMap_congr ih

/-- What comes of joining normal forms, each of which has a truth value. -/
theorem truth?_chain?_normals {join : List (Condition α) → Condition α} {op : List Bool → Bool}
    (hop : Folds op)
    (hj : ∀ cs, truth? holds (join cs) = combine? op (cs.filterMap (truth? holds)))
    {cs : List (Condition α)}
    (ih : ∀ c ∈ cs, (normal? c).bind (truth? holds) = truth? holds c ∧
      ∀ d, normal? c = some d → (truth? holds d).isSome) :
    (chain? join (normals cs)).bind (truth? holds) = truth? holds (join cs) ∧
      ∀ d, chain? join (normals cs) = some d → (truth? holds d).isSome := by
  have hs : ∀ e ∈ normals cs, (truth? holds e).isSome := fun e he => by
    rw [normals_eq_filterMap] at he
    obtain ⟨c, hc, hce⟩ := List.mem_filterMap.1 he
    exact (ih c hc).2 e hce
  have h := truth?_chain? hop hj hs
  refine ⟨by rw [h, hj, filterMap_truth?_normals fun c hc => (ih c hc).1], fun d hd => ?_⟩
  rw [hd, Option.bind_some] at h
  rw [h]
  cases hn : normals cs with
  | nil => rw [hn] at hd; cases hd
  | cons e es =>
    obtain ⟨v, hv⟩ := Option.isSome_iff_exists.1 (hs e (by simp [hn]))
    simp [hv, combine?]

theorem truth?_normal?_and_isSome (c : Condition α) :
    (normal? c).bind (truth? holds) = truth? holds c ∧
      ∀ d, normal? c = some d → (truth? holds d).isSome := by
  induction c with
  | leaf a => exact ⟨rfl, fun d hd => by cases hd; rfl⟩
  | and cs ih => exact truth?_chain?_normals folds_all truth?_and ih
  | or cs ih => exact truth?_chain?_normals folds_any truth?_or ih
  | not c ih =>
    rw [normal?, truth?, ← ih.1]
    cases hn : normal? c with
    | none => exact ⟨rfl, fun d hd => by cases hd⟩
    | some e =>
      refine ⟨by simp [truth?_negate], fun d hd => ?_⟩
      cases hd
      simpa [truth?_negate] using ih.2 e hn

/-- **A normal form holds where its condition does**, and a condition without
one has no truth value. -/
theorem truth?_normal? (c : Condition α) : (normal? c).bind (truth? holds) = truth? holds c :=
  (truth?_normal?_and_isSome c).1

/-! ## Formulas -/

/-- Joining formulas two by two keeps the truth value of the list. -/
theorem map_eval_chain? {join : Formula α → Formula α → Formula α} {op : List Bool → Bool}
    (hop : Folds op) (hj : ∀ f g, (join f g).eval holds = op [f.eval holds, g.eval holds]) :
    ∀ fs : List (Formula α),
      (Formula.chain? join fs).map (Formula.eval holds) = combine? op (fs.map (Formula.eval holds))
  | [] => rfl
  | [f] => by simp [Formula.chain?, combine?, hop.one]
  | f :: g :: fs => by
    have ih := map_eval_chain? hop hj (g :: fs)
    rw [Formula.chain?]
    cases hc : Formula.chain? join (g :: fs) with
    | none => rw [hc] at ih; simp [combine?] at ih
    | some e =>
      rw [hc] at ih
      simp only [Option.map_some, List.map_cons, combine?, Option.some.injEq] at ih ⊢
      rw [hj, ih, ← hop.more]

theorem lowers_eq_filterMap (cs : List (Condition α)) :
    Formula.lowers cs = cs.filterMap Formula.lower? := by
  induction cs with
  | nil => rfl
  | cons c cs ih => cases h : Formula.lower? c <;> simp [Formula.lowers, h, ih]

theorem map_eval_lowers {cs : List (Condition α)}
    (ih : ∀ c ∈ cs, (Formula.lower? c).map (Formula.eval holds) = truth? holds c) :
    (Formula.lowers cs).map (Formula.eval holds) = cs.filterMap (truth? holds) := by
  rw [lowers_eq_filterMap, List.map_filterMap]
  exact List.filterMap_congr ih

theorem map_eval_lower? (c : Condition α) :
    (Formula.lower? c).map (Formula.eval holds) = truth? holds c := by
  induction c with
  | leaf a => rfl
  | and cs ih =>
    rw [Formula.lower?, map_eval_chain? folds_all (by simp [Formula.eval]), map_eval_lowers ih,
      truth?_and]
  | or cs ih =>
    rw [Formula.lower?, map_eval_chain? folds_any (by simp [Formula.eval]), map_eval_lowers ih,
      truth?_or]
  | not c ih =>
    rw [Formula.lower?, truth?, ← ih]
    cases Formula.lower? c <;> rfl

/-- **The formula of a condition evaluates to its truth value**, and there is
none for a condition without one. -/
theorem truth?_eq_eval (c : Condition α) :
    truth? holds c = (Formula.ofCondition? c).map (Formula.eval holds) := by
  rw [Formula.ofCondition?, Option.map_bind, ← truth?_normal?]
  exact congrArg _ (funext fun d => (map_eval_lower? d).symm)

/-! ## Substitution -/

/-- Conditions with the same truth values in place of the leaves. -/
theorem truth?_bind_congr {p : β → Bool} {q : γ → Bool} {f : α → Condition β}
    {g : α → Condition γ} {c : Condition α}
    (h : ∀ a ∈ c.leaves, truth? p (f a) = truth? q (g a)) :
    truth? p (c.bind f) = truth? q (c.bind g) := by
  have list : ∀ {cs : List (Condition α)}, (∀ a ∈ leavesOf cs, truth? p (f a) = truth? q (g a)) →
      (∀ c ∈ cs, (∀ a ∈ c.leaves, truth? p (f a) = truth? q (g a)) →
        truth? p (c.bind f) = truth? q (c.bind g)) →
      (bindAll f cs).filterMap (truth? p) = (bindAll g cs).filterMap (truth? q) := by
    intro cs hl ih
    rw [bindAll_eq_map, bindAll_eq_map, List.filterMap_map, List.filterMap_map]
    rw [leavesOf_eq_flatMap] at hl
    exact List.filterMap_congr fun c hc =>
      ih c hc fun a ha => hl a (List.mem_flatMap.2 ⟨c, hc, ha⟩)
  induction c with
  | leaf a => exact h a (by simp [leaves])
  | and cs ih => rw [bind, bind, truth?_and, truth?_and, list h ih]
  | or cs ih => rw [bind, bind, truth?_or, truth?_or, list h ih]
  | not c ih => rw [bind, bind, truth?, truth?, ih h]

end VarLogic.Condition
