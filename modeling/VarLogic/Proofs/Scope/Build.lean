/-
Building a scope takes the definitions one after the other, from the scope with
nothing in it (`create_eq`). A definition that nothing objects to is added at
the end (`shape_defineAll`), and the first one that something objects to
is the error of the whole (`defineAll_eq_error`).
-/
import VarLogic.Proofs.Scope.Invariant

namespace VarLogic

/-! ## Folding until something fails -/

section

variable {σ α ε : Type} {f : σ → α → Except ε σ}

theorem foldlM_cons_eq_ok {x : α} {xs : List α} {s s' : σ} :
    (x :: xs).foldlM f s = .ok s' ↔ ∃ s₁, f s x = .ok s₁ ∧ xs.foldlM f s₁ = .ok s' := by
  rw [List.foldlM_cons]
  cases h : f s x <;> simp [bind, Except.bind]

/-- A fold fails at the first member that fails. -/
theorem foldlM_eq_error {xs : List α} {s : σ} {e : ε} :
    xs.foldlM f s = .error e ↔
      ∃ front x rest s₁, xs = front ++ x :: rest ∧ front.foldlM f s = .ok s₁ ∧ f s₁ x = .error e := by
  induction xs generalizing s with
  | nil => simp [pure, Except.pure]
  | cons x xs ih =>
    rw [List.foldlM_cons]
    cases h : f s x with
    | error e' =>
      simp only [bind, Except.bind]
      constructor
      · intro he
        exact ⟨[], x, xs, s, rfl, rfl, he ▸ h⟩
      · rintro ⟨front, y, rest, s₁, hxs, hfront, hy⟩
        cases front with
        | nil =>
          obtain ⟨rfl, rfl⟩ := List.cons.inj hxs
          obtain rfl := Except.ok.inj hfront
          exact h.symm.trans hy
        | cons z front =>
          obtain ⟨rfl, rfl⟩ := List.cons.inj hxs
          obtain ⟨s₂, hs₂, -⟩ := foldlM_cons_eq_ok.1 hfront
          cases h.symm.trans hs₂
    | ok s' =>
      simp only [bind, Except.bind]
      rw [ih]
      constructor
      · rintro ⟨front, y, rest, s₁, rfl, hfront, hy⟩
        exact ⟨x :: front, y, rest, s₁, rfl, foldlM_cons_eq_ok.2 ⟨s', h, hfront⟩, hy⟩
      · rintro ⟨front, y, rest, s₁, hxs, hfront, hy⟩
        cases front with
        | nil =>
          obtain ⟨rfl, rfl⟩ := List.cons.inj hxs
          obtain rfl := Except.ok.inj hfront
          cases h.symm.trans hy
        | cons z front =>
          obtain ⟨rfl, rfl⟩ := List.cons.inj hxs
          obtain ⟨s₂, hs₂, hfront⟩ := foldlM_cons_eq_ok.1 hfront
          obtain rfl := Except.ok.inj (h.symm.trans hs₂)
          exact ⟨front, y, rest, s₁, rfl, hfront, hy⟩

end

namespace Scope

/-! ## Where building starts -/

/-- The scope that definitions are added to, with nothing in it: an outermost
one, or one nested in another. -/
def start (definitions : Definitions) : Option Scope → Scope
  | none => ⟨ShortId.ofValue definitions.toValue, .empty, []⟩
  | some parent => ⟨parent.hash, .empty, parent.levels⟩

theorem create_eq (definitions : Definitions) (parent : Option Scope) :
    create definitions parent = (start definitions parent).defineAll definitions := by
  cases parent <;> rfl

theorem sound_start {parent : Option Scope} (hp : ∀ p ∈ parent, p.Reachable)
    (definitions : Definitions) : (start definitions parent).Sound := by
  cases parent with
  | none => exact sound_outermost _
  | some p => exact sound_inner (hp p rfl).sound

/-- A scope built on top of a reachable one, or on nothing, is reachable. -/
theorem reachable_create {parent : Option Scope} (hp : ∀ p ∈ parent, p.Reachable)
    {definitions : Definitions} {s : Scope} (h : create definitions parent = .ok s) :
    s.Reachable := by
  cases parent with
  | none => exact .root h
  | some p => exact .nest (hp p rfl) h

/-! ## One definition after the other -/

variable {s s' : Scope} {definitions : Definitions}

theorem defineAll_cons {name : String} {definition : Condition String} :
    s.defineAll ((name, definition) :: definitions) = .ok s' ↔
      ∃ s₁, s.define name definition = .ok s₁ ∧ s₁.defineAll definitions = .ok s' :=
  foldlM_cons_eq_ok

/-- **The first definition that something objects to is the error.** -/
theorem defineAll_eq_error {e : Error} :
    s.defineAll definitions = .error e ↔
      ∃ front name definition rest s₁, definitions = front ++ (name, definition) :: rest ∧
        s.defineAll front = .ok s₁ ∧ s₁.define name definition = .error e := by
  rw [defineAll, foldlM_eq_error]
  simp only [Prod.exists]
  rfl

/-- A definition goes to the end of its level, whatever the levels around. -/
theorem shape_define {name : String} {definition : Condition String}
    (h : s.define name definition = .ok s') :
    s'.hash = s.hash ∧ s'.ancestors = s.ancestors ∧
      s'.level.conditions.map (fun c => (c.name, c.definition)) =
        s.level.conditions.map (fun c => (c.name, c.definition)) ++ [(name, definition)] := by
  obtain ⟨-, -, s₁, c, hg, rfl, rfl, rfl, -⟩ := define_eq_ok h
  obtain ⟨new, rfl⟩ := hg.hooks
  simp [addCondition]

/-- **What was built are the definitions, in order**, behind what was there. -/
theorem shape_defineAll (h : s.defineAll definitions = .ok s') :
    s'.hash = s.hash ∧ s'.ancestors = s.ancestors ∧
      s'.level.conditions.map (fun c => (c.name, c.definition)) =
        s.level.conditions.map (fun c => (c.name, c.definition)) ++ definitions := by
  induction definitions generalizing s with
  | nil =>
    obtain rfl := Except.ok.inj h
    simp
  | cons d definitions ih =>
    obtain ⟨s₁, hd, h⟩ := defineAll_cons.1 h
    obtain ⟨hhash, hancestors, hconditions⟩ := ih h
    obtain ⟨hhash', hancestors', hconditions'⟩ := shape_define hd
    exact ⟨hhash.trans hhash', hancestors.trans hancestors', by
      rw [hconditions, hconditions', List.append_assoc, List.singleton_append]⟩

theorem names_eq_map (level : Level) :
    level.names = (level.conditions.map fun c => (c.name, c.definition)).map (·.1) := by
  simp [Level.names]

/-- The level of a scope that was built has the definitions, in order. -/
theorem conditions_create {parent : Option Scope} (h : create definitions parent = .ok s) :
    s.level.conditions.map (fun c => (c.name, c.definition)) = definitions := by
  rw [create_eq] at h
  rw [(shape_defineAll h).2.2]
  cases parent <;> rfl

theorem names_create {parent : Option Scope} (h : create definitions parent = .ok s) :
    s.level.names = definitions.map (·.1) := by
  rw [names_eq_map, conditions_create h]

end Scope

end VarLogic
