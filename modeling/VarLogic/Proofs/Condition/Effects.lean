/-
Substitutions with effects, apart from what they make. What a substitution does
to the state is what reading its leaves does, from left to right up to the
first one that fails (`effect_bindM`). Where reading a leaf leaves the state as
it is, so does the whole substitution (`bindM_of_fixed`), and substituting once
more in what it made can be done leaf by leaf (`bindM_map`).
-/
import VarLogic.Proofs.Condition.Leaves

namespace VarLogic.Condition

variable {α β γ σ ε : Type}

/-- What an action does to the state, unless it fails. -/
def effect (x : StateT σ (Except ε) γ) (s : σ) : Except ε σ := (x s).map Prod.snd

theorem effect_eq_ok {x : StateT σ (Except ε) γ} {s s' : σ} :
    effect x s = .ok s' ↔ ∃ a, x s = .ok (a, s') := by
  unfold effect
  cases x s <;> simp [Except.map, Prod.ext_iff]

theorem effect_eq_error {x : StateT σ (Except ε) γ} {s : σ} {e : ε} :
    effect x s = .error e ↔ x s = .error e := by
  unfold effect
  cases x s <;> simp [Except.map]

/-- An action after another that fails or leaves a state behind. -/
theorem effect_bind {δ : Type} (x : StateT σ (Except ε) γ) {k : γ → StateT σ (Except ε) δ}
    {next : σ → Except ε σ} (h : ∀ a s, effect (k a) s = next s) (s : σ) :
    effect (x >>= k) s = effect x s >>= next := by
  change ((x s).bind fun p => k p.1 p.2).map Prod.snd = ((x s).map Prod.snd).bind next
  cases x s with
  | error e => rfl
  | ok p => exact h p.1 p.2

theorem effect_pure (a : γ) (s : σ) : effect (pure a : StateT σ (Except ε) γ) s = .ok s := rfl

/-- An action with a pure one behind it. -/
theorem effect_map {δ : Type} (x : StateT σ (Except ε) γ) (g : γ → δ) (s : σ) :
    effect (do return g (← x)) s = effect x s := by
  rw [effect_bind x fun a s => effect_pure (g a) s]
  cases effect x s <;> rfl

variable {f : α → StateT σ (Except ε) (Condition β)}

/-- The operands are read one after the other. -/
theorem effect_bindAllM {cs : List (Condition α)}
    (ih : ∀ c ∈ cs, ∀ s, effect (bindM f c) s = c.leaves.foldlM (fun s a => effect (f a) s) s)
    (s : σ) :
    effect (bindAllM f cs) s = (leavesOf cs).foldlM (fun s a => effect (f a) s) s := by
  induction cs generalizing s with
  | nil => rfl
  | cons c cs ihcs =>
    have hrest : ∀ d s, effect (do return d :: (← bindAllM f cs)) s =
        (leavesOf cs).foldlM (fun s a => effect (f a) s) s := fun d s => by
      rw [effect_map (bindAllM f cs) (d :: ·), ihcs fun e he => ih e (by simp [he])]
    rw [bindAllM, effect_bind _ hrest, ih c (by simp), leavesOf, List.foldlM_append]

/-- **A substitution does what reading its leaves does**, from left to right up
to the first that fails. -/
theorem effect_bindM (c : Condition α) (s : σ) :
    effect (bindM f c) s = c.leaves.foldlM (fun s a => effect (f a) s) s := by
  induction c generalizing s with
  | leaf a =>
    change effect (f a) s = effect (f a) s >>= fun s => .ok s
    cases effect (f a) s <;> rfl
  | and cs ih | or cs ih => rw [bindM, effect_map, effect_bindAllM ih, leaves]
  | not c ih => rw [bindM, effect_map, ih, leaves]

/-- Where no leaf changes the state, the substitution is one without effects. -/
theorem bindM_of_fixed {g : α → Condition β} {c : Condition α} {s : σ}
    (h : ∀ a ∈ c.leaves, f a s = .ok (g a, s)) : bindM f c s = .ok (c.bind g, s) := by
  have list : ∀ {cs : List (Condition α)}, (∀ a ∈ leavesOf cs, f a s = .ok (g a, s)) →
      (∀ c ∈ cs, (∀ a ∈ c.leaves, f a s = .ok (g a, s)) → bindM f c s = .ok (c.bind g, s)) →
      bindAllM f cs s = .ok (bindAll g cs, s) := by
    intro cs hl ih
    induction cs with
    | nil => rfl
    | cons c cs ihcs =>
      refine bindStateT_eq_ok.2 ⟨_, _, ih c (by simp) fun a ha => hl a (by simp [leavesOf, ha]),
        bindStateT_eq_ok.2 ⟨_, _, ihcs (fun a ha => hl a (by simp [leavesOf, ha]))
          (fun d hd => ih d (by simp [hd])), rfl⟩⟩
  induction c with
  | leaf a => exact h a (by simp [leaves])
  | and cs ih | or cs ih => exact bindStateT_eq_ok.2 ⟨_, _, list h ih, rfl⟩
  | not c ih => exact bindStateT_eq_ok.2 ⟨_, _, ih h, rfl⟩

/-- A substitution in what a leaf was replaced by can wait for the whole. -/
theorem bindM_map (g : β → Condition γ) (c : Condition α) :
    bindM (fun a => do return (← f a).bind g) c = (do return (← bindM f c).bind g) := by
  have list : ∀ {cs : List (Condition α)},
      (∀ c ∈ cs, bindM (fun a => do return (← f a).bind g) c = (do return (← bindM f c).bind g)) →
      bindAllM (fun a => do return (← f a).bind g) cs = (do return bindAll g (← bindAllM f cs)) := by
    intro cs ih
    induction cs with
    | nil => rfl
    | cons c cs ihcs =>
      rw [bindAllM, bindAllM, ih c (by simp), ihcs fun d hd => ih d (by simp [hd])]
      simp only [bind_assoc, pure_bind]
      rfl
  induction c with
  | leaf a => rfl
  | and cs ih | or cs ih =>
    rw [bindM, bindM, list ih]
    simp only [bind_assoc, pure_bind]
    rfl
  | not c ih =>
    rw [bindM, bindM, ih]
    simp only [bind_assoc, pure_bind]
    rfl

end VarLogic.Condition
