/-
What becomes of leaves. Normal forms and formulas keep them in order
(`leaves_normal?`, `leaves_ofCondition?`), and a condition has a truth value
as soon as it has one (`isSome_truth?`). A substitution with effects is one
without, as far as the effects leave what a leaf stands for as it is
(`bindM_eq_bind`).
-/
import VarLogic.Proofs.Condition.Truth

namespace VarLogic

/-- What stands at some place of two lists together stands in one of them. -/
theorem append_eq_split {α : Type} {xs ys front rest : List α} {d : α}
    (h : xs ++ ys = front ++ d :: rest) :
    (∃ rest', xs = front ++ d :: rest') ∨ ∃ front', front = xs ++ front' ∧ ys = front' ++ d :: rest := by
  rcases List.append_eq_append_iff.1 h with ⟨front', hfront, hys⟩ | ⟨rest', hxs, hrest⟩
  · exact .inr ⟨front', hfront, hys⟩
  · cases rest' with
    | nil => exact .inr ⟨[], by simpa using hxs.symm, hrest.symm⟩
    | cons x rest' =>
      obtain ⟨rfl, -⟩ := List.cons.inj hrest
      exact .inl ⟨rest', hxs⟩

namespace Condition

variable {α β : Type}

/-! ## Formulas -/

theorem leaves_chain? {join : List (Condition α) → Condition α}
    (hj : ∀ cs, (join cs).leaves = cs.flatMap leaves) :
    ∀ cs : List (Condition α), (chain? join cs).elim [] leaves = cs.flatMap leaves
  | [] => rfl
  | c :: cs => by
    have ih := leaves_chain? hj cs
    rw [chain?]
    cases hc : chain? join cs with
    | none => simp only [hc, Option.elim_none] at ih; simp [← ih]
    | some d => simp only [hc, Option.elim_some] at ih; simp [hj, ih]

theorem leaves_negate (c : Condition α) : c.negate.leaves = c.leaves := by
  cases c <;> rfl

/-- What the members without a normal form leave out has no leaf. -/
theorem flatMap_leaves_filterMap {γ : Type} {f : Condition α → Option γ} {ls : γ → List α}
    {cs : List (Condition α)} (ih : ∀ c ∈ cs, (f c).elim [] ls = c.leaves) :
    (cs.filterMap f).flatMap ls = leavesOf cs := by
  rw [leavesOf_eq_flatMap]
  induction cs with
  | nil => rfl
  | cons c cs ihc =>
    have hc := ih c (by simp)
    have hcs := ihc fun d hd => ih d (by simp [hd])
    cases h : f c with
    | none => rw [h, Option.elim_none] at hc; simp [h, hcs, ← hc]
    | some d => rw [h, Option.elim_some] at hc; simp [h, hcs, hc]

theorem leaves_normal? (c : Condition α) : (normal? c).elim [] leaves = c.leaves := by
  induction c with
  | leaf a => rfl
  | and cs ih | or cs ih =>
    rw [normal?, leaves_chain? (fun cs => by simp [leaves, leavesOf_eq_flatMap]),
      normals_eq_filterMap, flatMap_leaves_filterMap ih, leaves]
  | not c ih =>
    rw [normal?, leaves, ← ih]
    cases normal? c <;> simp [leaves_negate]

theorem leaves_formula_chain? {join : Formula α → Formula α → Formula α}
    (hj : ∀ f g, (join f g).leaves = f.leaves ++ g.leaves) :
    ∀ fs : List (Formula α), (Formula.chain? join fs).elim [] Formula.leaves = fs.flatMap Formula.leaves
  | [] => rfl
  | f :: fs => by
    have ih := leaves_formula_chain? hj fs
    rw [Formula.chain?]
    cases hc : Formula.chain? join fs with
    | none => simp only [hc, Option.elim_none] at ih; simp [← ih]
    | some d => simp only [hc, Option.elim_some] at ih; simp [hj, ih]

theorem leaves_lower? (c : Condition α) :
    (Formula.lower? c).elim [] Formula.leaves = c.leaves := by
  induction c with
  | leaf a => rfl
  | and cs ih | or cs ih =>
    rw [Formula.lower?, leaves_formula_chain? (fun _ _ => rfl), lowers_eq_filterMap,
      flatMap_leaves_filterMap ih, leaves]
  | not c ih =>
    rw [Formula.lower?, leaves, ← ih]
    cases Formula.lower? c <;> rfl

/-- The formula of a condition has the leaves of the condition. -/
theorem leaves_ofCondition? {c : Condition α} {f : Formula α}
    (h : Formula.ofCondition? c = some f) : f.leaves = c.leaves := by
  rw [Formula.ofCondition?, Option.bind_eq_some_iff] at h
  obtain ⟨d, hd, hf⟩ := h
  have hn := leaves_normal? c
  have hl := leaves_lower? d
  rw [hd, Option.elim_some] at hn
  rw [hf, Option.elim_some] at hl
  rw [hl, hn]

theorem leaves_of_normal? {c d : Condition α} (h : normal? c = some d) : d.leaves = c.leaves := by
  simpa [h] using leaves_normal? c

/-- A condition has a truth value if it has a leaf. -/
theorem isSome_truth? {holds : α → Bool} (c : Condition α) :
    (truth? holds c).isSome = !c.leaves.isEmpty := by
  have filterMap_nil : ∀ {cs : List (Condition α)},
      (∀ c ∈ cs, (truth? holds c).isSome = !c.leaves.isEmpty) →
      (cs.filterMap (truth? holds)).isEmpty = (leavesOf cs).isEmpty := by
    intro cs ih
    rw [leavesOf_eq_flatMap, Bool.eq_iff_iff, List.isEmpty_iff, List.isEmpty_iff,
      List.filterMap_eq_nil_iff, List.flatMap_eq_nil_iff]
    refine forall₂_congr fun c hc => ?_
    have := ih c hc
    cases ht : truth? holds c <;> simp_all
  induction c with
  | leaf a => rfl
  | and cs ih =>
    rw [truth?_and, leaves, ← filterMap_nil ih]
    cases cs.filterMap (truth? holds) <;> rfl
  | or cs ih =>
    rw [truth?_or, leaves, ← filterMap_nil ih]
    cases cs.filterMap (truth? holds) <;> rfl
  | not c ih => simpa [truth?, leaves] using ih

/-- A condition has a formula if it has a leaf. -/
theorem isSome_ofCondition? (c : Condition α) :
    (Formula.ofCondition? c).isSome = !c.leaves.isEmpty := by
  rw [← isSome_truth? c, truth?_eq_eval, Option.isSome_map]
  exact fun _ => true

/-- A condition has a normal form if it has a leaf. -/
theorem isSome_normal? (c : Condition α) : c.normal?.isSome = !c.leaves.isEmpty := by
  have h := @truth?_normal?_and_isSome α (fun _ => true) c
  rw [← isSome_truth? c, ← h.1]
  cases hn : c.normal? with
  | none => rfl
  | some d => simpa using (h.2 d hn).symm

theorem normal?_eq_none {c : Condition α} : c.normal? = none ↔ c.leaves = [] := by
  rw [← Option.isNone_iff_eq_none, ← Option.not_isSome, isSome_normal?]
  simp

theorem ofCondition?_eq_none {c : Condition α} :
    Formula.ofCondition? c = none ↔ c.leaves = [] := by
  rw [← Option.isNone_iff_eq_none, ← Option.not_isSome, isSome_ofCondition?]
  simp

/-! ## Substitution -/

theorem leaves_bind (f : α → Condition β) (c : Condition α) :
    (c.bind f).leaves = c.leaves.flatMap fun a => (f a).leaves := by
  have list : ∀ {cs : List (Condition α)},
      (∀ c ∈ cs, (c.bind f).leaves = c.leaves.flatMap fun a => (f a).leaves) →
      leavesOf (bindAll f cs) = (leavesOf cs).flatMap fun a => (f a).leaves := by
    intro cs ih
    rw [bindAll_eq_map, leavesOf_eq_flatMap, leavesOf_eq_flatMap, List.flatMap_assoc,
      List.flatMap_map]
    exact List.flatMap_congr ih
  induction c with
  | leaf a => simp [bind, leaves]
  | and cs ih | or cs ih => rw [bind, leaves, leaves, list ih]
  | not c ih => rw [bind, leaves, leaves, ih]

theorem bind_bind {γ : Type} (f : α → Condition β) (g : β → Condition γ) (c : Condition α) :
    (c.bind f).bind g = c.bind fun a => (f a).bind g := by
  have list : ∀ {cs : List (Condition α)},
      (∀ c ∈ cs, (c.bind f).bind g = c.bind fun a => (f a).bind g) →
      bindAll g (bindAll f cs) = bindAll (fun a => (f a).bind g) cs := by
    intro cs ih
    rw [bindAll_eq_map, bindAll_eq_map, bindAll_eq_map, List.map_map]
    exact List.map_congr_left ih
  induction c with
  | leaf a => rfl
  | and cs ih | or cs ih => rw [bind, bind, bind, list ih]
  | not c ih => rw [bind, bind, bind, ih]

theorem bind_congr {f g : α → Condition β} {c : Condition α} (h : ∀ a ∈ c.leaves, f a = g a) :
    c.bind f = c.bind g := by
  have list : ∀ {cs : List (Condition α)}, (∀ a ∈ leavesOf cs, f a = g a) →
      (∀ c ∈ cs, (∀ a ∈ c.leaves, f a = g a) → c.bind f = c.bind g) →
      bindAll f cs = bindAll g cs := by
    intro cs hl ih
    rw [leavesOf_eq_flatMap] at hl
    rw [bindAll_eq_map, bindAll_eq_map]
    exact List.map_congr_left fun c hc => ih c hc fun a ha => hl a (List.mem_flatMap.2 ⟨c, hc, ha⟩)
  induction c with
  | leaf a => exact h a (by simp [leaves])
  | and cs ih | or cs ih => rw [bind, bind, list h ih]
  | not c ih => rw [bind, bind, ih h]

/-! ## Substitution with effects -/

/-- Where every leaf has an image, so has the condition. -/
theorem bindM_eq_some {f : α → Option (Condition β)} {g : α → Condition β} {c : Condition α}
    (h : ∀ a ∈ c.leaves, f a = some (g a)) : c.bindM f = some (c.bind g) := by
  have list : ∀ {cs : List (Condition α)}, (∀ a ∈ leavesOf cs, f a = some (g a)) →
      (∀ c ∈ cs, (∀ a ∈ c.leaves, f a = some (g a)) → c.bindM f = some (c.bind g)) →
      bindAllM f cs = some (bindAll g cs) := by
    intro cs hl ih
    induction cs with
    | nil => rfl
    | cons c cs ihcs =>
      rw [bindAllM, ih c (by simp) fun a ha => hl a (by simp [leavesOf, ha]),
        ihcs (fun a ha => hl a (by simp [leavesOf, ha])) fun d hd => ih d (by simp [hd])]
      rfl
  induction c with
  | leaf a => exact h a (by simp [leaves])
  | and cs ih | or cs ih => rw [bindM, list h ih]; rfl
  | not c ih => rw [bindM, ih h]; rfl

section Effects

variable {σ ε : Type} {f : α → StateT σ (Except ε) (Condition β)}

theorem bindStateT_eq_ok {γ δ : Type} {x : StateT σ (Except ε) γ}
    {k : γ → StateT σ (Except ε) δ} {s s' : σ} {d : δ} :
    (x >>= k) s = .ok (d, s') ↔ ∃ a s₁, x s = .ok (a, s₁) ∧ k a s₁ = .ok (d, s') := by
  change Except.bind (x s) (fun p => k p.1 p.2) = _ ↔ _
  cases h : x s with
  | error e => simp [Except.bind]
  | ok p => obtain ⟨a, s₁⟩ := p; simp [Except.bind]

theorem pureStateT_eq_ok {γ : Type} {a d : γ} {s s' : σ} :
    (pure a : StateT σ (Except ε) γ) s = .ok (d, s') ↔ a = d ∧ s = s' := by
  change (Except.ok (a, s) : Except ε (γ × σ)) = _ ↔ _
  simp

section
variable {R : σ → σ → Prop} {g : σ → α → Condition β} {Q : σ → α → Prop}
  (refl : ∀ s, R s s) (trans : ∀ {s s₁ s₂}, R s s₁ → R s₁ s₂ → R s s₂)
include refl trans

/-- The operands, one after the other. -/
theorem bindAllM_eq_bindAll {cs : List (Condition α)} {s s' : σ} {ts : List (Condition β)}
    (ih : ∀ c ∈ cs, ∀ {s s' t}, bindM f c s = .ok (t, s') →
      R s s' ∧ ∀ s₂, R s' s₂ → t = c.bind (g s₂) ∧ ∀ a ∈ c.leaves, Q s₂ a)
    (h : bindAllM f cs s = .ok (ts, s')) :
    R s s' ∧ ∀ s₂, R s' s₂ → ts = bindAll (g s₂) cs ∧ ∀ a ∈ leavesOf cs, Q s₂ a := by
  induction cs generalizing s s' ts with
  | nil =>
    rw [bindAllM, pureStateT_eq_ok] at h
    obtain ⟨rfl, rfl⟩ := h
    exact ⟨refl s, fun _ _ => ⟨rfl, by simp [leavesOf]⟩⟩
  | cons c cs ihcs =>
    simp only [bindAllM, bindStateT_eq_ok, pureStateT_eq_ok] at h
    obtain ⟨d, s₁, hc, ds, _, hcs, rfl, rfl⟩ := h
    obtain ⟨hr, hd⟩ := ih c (by simp) hc
    obtain ⟨hr', hds⟩ := ihcs (fun e he => ih e (by simp [he])) hcs
    refine ⟨trans hr hr', fun s₂ h₂ => ?_⟩
    obtain ⟨rfl, hq⟩ := hd s₂ (trans hr' h₂)
    obtain ⟨rfl, hqs⟩ := hds s₂ h₂
    refine ⟨rfl, fun a ha => ?_⟩
    rw [leavesOf, List.mem_append] at ha
    exact ha.elim (hq a) (hqs a)

/-- If reading a leaf moves the state along `R`, and what it gave can be told
from any later state, then so can the whole result. -/
theorem bindM_eq_bind
    (hf : ∀ {a s d s₁}, f a s = .ok (d, s₁) → R s s₁ ∧ ∀ s₂, R s₁ s₂ → d = g s₂ a ∧ Q s₂ a)
    {c : Condition α} {s s' : σ} {t : Condition β} (h : bindM f c s = .ok (t, s')) :
    R s s' ∧ ∀ s₂, R s' s₂ → t = c.bind (g s₂) ∧ ∀ a ∈ c.leaves, Q s₂ a := by
  induction c generalizing s s' t with
  | leaf a =>
    obtain ⟨hr, hd⟩ := hf h
    refine ⟨hr, fun s₂ h₂ => ⟨(hd s₂ h₂).1, fun b hb => ?_⟩⟩
    rw [leaves, List.mem_singleton] at hb
    exact hb ▸ (hd s₂ h₂).2
  | and cs ih | or cs ih =>
    simp only [bindM, bindStateT_eq_ok, pureStateT_eq_ok] at h
    obtain ⟨ds, _, hcs, rfl, rfl⟩ := h
    obtain ⟨hr, hds⟩ := bindAllM_eq_bindAll refl trans (fun c hc _ _ _ => ih c hc) hcs
    exact ⟨hr, fun s₂ h₂ => ⟨by rw [(hds s₂ h₂).1]; rfl, (hds s₂ h₂).2⟩⟩
  | not c ih =>
    simp only [bindM, bindStateT_eq_ok, pureStateT_eq_ok] at h
    obtain ⟨d, _, hc, rfl, rfl⟩ := h
    obtain ⟨hr, hd⟩ := ih hc
    exact ⟨hr, fun s₂ h₂ => ⟨by rw [(hd s₂ h₂).1]; rfl, (hd s₂ h₂).2⟩⟩

end

end Effects

end Condition

end VarLogic
