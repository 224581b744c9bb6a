/-
Conditions without any hook. Whether a condition has a hook in it is decided
three times while it is compiled: when its tree over hooks is normalized, when
that becomes a formula, and when its tree over toggles becomes a network. The
three agree, because a name stands for a tree without a leaf in the one way
where it does in the other (`Made.isSome_compiled`). So all signs of such a
condition say the same (`vacuous_tfae`): it has no formula, no toggle and no
value of its own, and none of the names in its definition comes down to a hook.
-/
import VarLogic.Proofs.Scope.Conditions
import Mathlib.Tactic.TFAE

namespace VarLogic

open Scope (latest? expandName)

/-! ## Value texts -/

/-- A value text is longer than either side of it. -/
theorem Formula.length_lt_valueText (f : Formula String) (ifTrue ifFalse : String) :
    ifTrue.length < (f.valueText ifTrue ifFalse).length ∧
      ifFalse.length < (f.valueText ifTrue ifFalse).length := by
  induction f generalizing ifTrue ifFalse with
  | leaf id =>
    simp only [valueText, Toggle.referenceOr, String.length_append]
    have hvar : "var(".length = 4 := by decide
    omega
  | not f ih => exact (ih ifFalse ifTrue).symm
  | and l r ihl ihr =>
    have hl := ihl (r.valueText ifTrue ifFalse) ifFalse
    have hr := ihr ifTrue ifFalse
    exact ⟨hr.1.trans hl.1, hl.2⟩
  | or l r ihl ihr =>
    have hl := ihl ifTrue (r.valueText ifTrue ifFalse)
    have hr := ihr ifTrue ifFalse
    exact ⟨hl.1, hr.2.trans hl.2⟩

/-! ## Compiling -/

/-- A condition over targets has a normal form where it comes to something. -/
theorem Compiled.isSome_normal? {c : Condition Target} (hs : ∀ t ∈ c.leaves, t.Solid)
    (base : String) : (c.bind Target.tree).normal?.isSome = (ofTargets? c base).isSome := by
  rw [Condition.isSome_normal?, isSome_ofTargets? hs]

/-- The normal form of a condition over targets has a formula. -/
theorem Compiled.isSome_formula {c : Condition Target} (hs : ∀ t ∈ c.leaves, t.Solid)
    (base : String) :
    ((c.bind Target.tree).normal?.bind Formula.ofCondition?).isSome = (ofTargets? c base).isSome := by
  rw [← isSome_normal? hs base]
  cases hn : (c.bind Target.tree).normal? with
  | none => rfl
  | some tree =>
    have hleaves := Condition.isSome_normal? (c.bind Target.tree)
    rw [hn, ← Condition.leaves_of_normal? hn] at hleaves
    rw [Option.bind_some, Condition.isSome_ofCondition?, ← hleaves]

/-- What a definition stands for over targets, given the ids of hooks and the
conditions made before it, the latest first. -/
def targetsOf (ids : String → Option String) (earlier : List NamedCondition)
    (definition : Condition String) : Condition Target :=
  definition.bind (Target.leafOf ids (latest? earlier))

namespace Made

variable {ids : String → Option String}

theorem of_append {later earlier : List NamedCondition} (h : Made ids (later ++ earlier)) :
    Made ids earlier := by
  induction later with
  | nil => exact h
  | cons c later ih => cases h with | cons h => exact ih h

/-- **All ways of compiling a condition agree on whether there is a hook in
it**: its normal form, the formula of that, and its network. -/
theorem isSome_compiled {later earlier : List NamedCondition} {c : NamedCondition}
    (h : Made ids (later ++ c :: earlier)) (base : String) :
    (targetsOf ids earlier c.definition |>.bind Target.tree).normal?.isSome = c.compiled.isSome ∧
      ((targetsOf ids earlier c.definition |>.bind Target.tree).normal?.bind
        Formula.ofCondition?).isSome = c.compiled.isSome ∧
      (Network.ofCondition? (targetsOf ids earlier c.definition |>.bind Target.toggle) base).isSome =
        c.compiled.isSome := by
  cases h.of_append with
  | cons he _ _ hc =>
    have hs : ∀ t ∈ (targetsOf ids earlier c.definition).leaves, t.Solid := fun t =>
      Target.solid_of_mem_leaves he.solid_of_latest?
    rw [hc, ← targetsOf]
    exact ⟨Compiled.isSome_normal? hs _, Compiled.isSome_formula hs _,
      Compiled.isSome_network hs _ _⟩

end Made

/-! ## Scopes -/

namespace Scope

/-- The leaves of what a name stands for are hooks. -/
theorem isHookSyntax_of_mem_expandName {history : List NamedCondition} {name text : String}
    (h : text ∈ (expandName history name).leaves) : Hook.isHookSyntax text = true := by
  induction history generalizing name with
  | nil => simp [expandName, Condition.vacuous, Condition.leaves, Condition.leavesOf] at h
  | cons c earlier ih =>
    rw [expandName] at h
    split at h
    · rw [Condition.leaves_bind, List.mem_flatMap] at h
      obtain ⟨leaf, -, h⟩ := h
      split at h
      · rename_i hh
        obtain rfl : text = leaf := by simpa [Condition.leaves] using h
        exact hh
      · exact ih h
    · exact ih h

variable {s : Scope}

/-- A condition was compiled to nothing if its expansion has no leaf. -/
theorem compiled_eq_none_iff (hs : s.Sound) {name : String} {c : NamedCondition}
    (h : s.lookup? name = some c) : c.compiled = none ↔ (s.expansion name).leaves = [] := by
  have hsome := @Condition.isSome_truth? _ (fun _ : String => true) (s.expansion name)
  rw [truth?_expansion hs _ h, Option.isSome_map] at hsome
  cases hk : c.compiled <;> simpa [hk] using hsome

/-- **All signs of a condition without a hook agree.** A name in sight has no
formula, no toggle, no hook in its expansion and no other value text than the
false side, all of these or none. And whether there is a hook in a condition
of any level comes out the same for its tree over hooks, for the formula of
that and for its network over toggles. -/
theorem vacuous_tfae {s : Scope} (h : s.Reachable) {name : String} (hn : name ∈ s.names) :
    [s.formula name = .ok none,
      s.toggle? name = none,
      ¬ ∃ text ∈ (s.expansion name).leaves, Hook.isHookSyntax text = true,
      ∀ ifTrue ifFalse, s.valueText name ifTrue ifFalse = .ok ifFalse].TFAE ∧
    ∀ later c earlier, s.history = later ++ c :: earlier → ∀ base,
      let targets := targetsOf s.hookId? earlier c.definition
      (targets.bind Target.tree).normal?.isSome = c.compiled.isSome ∧
        ((targets.bind Target.tree).normal?.bind Formula.ofCondition?).isSome =
          c.compiled.isSome ∧
        (Network.ofCondition? (targets.bind Target.toggle) base).isSome = c.compiled.isSome := by
  obtain ⟨c, -, hlookup, hformula⟩ := formula_eq h.sound hn
  have hnone := compiled_eq_none_iff h.sound hlookup
  have hleaves : (¬ ∃ text ∈ (s.expansion name).leaves, Hook.isHookSyntax text = true) ↔
      c.compiled = none := by
    rw [hnone, List.eq_nil_iff_forall_not_mem]
    push Not
    exact forall_congr' fun text =>
      ⟨fun hno ht => hno ht (isHookSyntax_of_mem_expandName ht), fun hno ht => absurd ht hno⟩
  refine ⟨?_, fun later c earlier he base => Made.isSome_compiled (he ▸ h.sound.made) base⟩
  tfae_have 1 ↔ 3 := by simp [hformula, hleaves]
  tfae_have 2 ↔ 3 := by simp [toggle?, hlookup, NamedCondition.toggle?, hleaves]
  tfae_have 4 ↔ 3 := by
    rw [hleaves]
    cases hk : c.compiled with
    | none => simp [valueText, hformula, hk, bind, Except.bind, pure, Except.pure]
    | some k =>
      simp only [valueText, hformula, hk, Option.map_some, bind, Except.bind, pure, Except.pure,
        Except.ok.injEq, reduceCtorEq, iff_false, not_forall]
      refine ⟨"", "", fun he => ?_⟩
      have hlength := (k.formula.length_lt_valueText "" "").2
      rw [he] at hlength
      exact absurd hlength (lt_irrefl _)
  tfae_finish

/-- Idle conditions: nothing, and what is not nothing. -/
def idleDefinitions : Definitions :=
  [("never", .or []), ("always", .not (.and [.leaf "never", .not (.leaf "never")])),
    ("bright", .or [.leaf "never", .not (.leaf "dark")])]

/-- The negation of nothing is nothing; a list with one member that comes down
to a hook is not. -/
theorem vacuous_tfae_idle :
    ∃ parent s, root litDefinitions = .ok parent ∧ parent.nest idleDefinitions = .ok s ∧
      (s.toggle? "always" = none ∧ s.formula "always" = .ok none ∧
        ∀ ifTrue ifFalse, s.valueText "always" ifTrue ifFalse = .ok ifFalse) ∧
      s.formula "bright" ≠ .ok none := by
  have hany : ((root litDefinitions).toOption.bind fun parent =>
      (parent.nest idleDefinitions).toOption).any (fun s =>
        decide ("always" ∈ s.names ∧ "bright" ∈ s.names ∧ (s.expansion "always").leaves = [] ∧
          (s.expansion "bright").leaves = [".dark &"])) = true := by
    decide +kernel
  obtain ⟨parent, s, hparent, hs, hp⟩ := exists_nested_of_any hany
  obtain ⟨halways, hbright, hnone, hdark⟩ := of_decide_eq_true hp
  have hreach : s.Reachable := .nest (.root hparent) hs
  have htfae := (vacuous_tfae hreach halways).1
  have hno : ¬ ∃ text ∈ (s.expansion "always").leaves, Hook.isHookSyntax text = true := by
    simp [hnone]
  refine ⟨parent, s, hparent, hs, ⟨(htfae.out 1 2).2 hno, (htfae.out 0 2).2 hno,
    (htfae.out 3 2).2 hno⟩, fun hf => ?_⟩
  have hbrightTfae := (vacuous_tfae hreach hbright).1
  have hno : ¬ _ := (hbrightTfae.out 0 2).1 hf
  exact hno ⟨".dark &", by simp [hdark], by decide⟩

end Scope

end VarLogic
