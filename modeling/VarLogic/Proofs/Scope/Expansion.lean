/-
Formulas are those of the definitions with all names expanded. A condition is
compiled from the trees of the conditions it refers to, which are normal forms
made before; its formula is that of its definition with every name replaced by
what it stood for when the definition was made, down to the ids of hooks
(`formula_eq_expanded`). It is the same tree because a normal form in place of
a leaf gives the same normal form as the condition it comes from.
-/
import VarLogic.Proofs.Condition.Normal
import VarLogic.Proofs.Scope.Conditions

namespace VarLogic

open Condition (normal?)
open Scope (latest? expandName)

/-! ## Histories -/

namespace Made

variable {ids : String → Option String} {history : List NamedCondition}

/-- Every hook that a name comes down to has an id. -/
theorem isSome_of_mem_expandName (h : Made ids history) (name : String) :
    ∀ text ∈ (expandName history name).leaves, (ids text).isSome := by
  induction h generalizing name with
  | nil => simp [expandName, Condition.vacuous, Condition.leaves, Condition.leavesOf]
  | @cons c earlier base _ hl _ _ ih =>
    intro text ht
    rw [expandName] at ht
    split at ht
    · rw [Condition.leaves_bind, List.mem_flatMap] at ht
      obtain ⟨leaf, hleaf, ht⟩ := ht
      split at ht
      · rename_i hh
        obtain rfl : text = leaf := by simpa [Condition.leaves] using ht
        simpa [Target.of?, hh] using hl text hleaf
      · exact ih leaf text ht
    · exact ih name text ht

/-- A hook text as the leaf of its id. -/
def leafOfId (ids : String → Option String) (text : String) : Condition String :=
  ((ids text).map .leaf).getD .vacuous

/-- What a condition comes to has the normal form of what it was made of. -/
theorem normal?_reference {c : Condition Target} {base : String} (hs : ∀ t ∈ c.leaves, t.Solid) :
    normal? (Target.reference (Compiled.ofTargets? c base)).tree = normal? (c.bind Target.tree) := by
  cases hk : Compiled.ofTargets? c base with
  | none =>
    have he := Compiled.isSome_ofTargets? hs base
    rw [hk, Option.isSome_none, ← Condition.isSome_normal?, eq_comm, Option.isSome_eq_false_iff,
      Option.isNone_iff_eq_none] at he
    rw [he]
    rfl
  | some k =>
    have htree := (Compiled.ofTargets?_eq_some.1 hk).1
    rw [htree]
    exact Condition.normal?_of_normal? htree

/-- **The tree of a condition is the normal form of its definition**, with all
names expanded down to the ids of hooks. -/
theorem normal?_treeOf (h : Made ids history) (name : String) :
    normal? (treeOf history name) = normal? ((expandName history name).bind (leafOfId ids)) := by
  induction h generalizing name with
  | nil => rfl
  | @cons c earlier base he hl hb hc ih =>
    rw [expandName]
    by_cases hname : c.name = name
    · have htree : treeOf (c :: earlier) name = (Target.reference c.compiled).tree := by
        simp [treeOf, latest?, hname]
      rw [if_pos hname, htree, hc,
        normal?_reference (fun t => Target.solid_of_mem_leaves he.solid_of_latest?),
        Condition.bind_bind, Condition.bind_bind]
      -- Leaf by leaf: a hook stands for its id, a name for a tree made before.
      refine Condition.normal?_bind_congr fun leaf hleaf => ?_
      obtain ⟨t, ht⟩ := Option.isSome_iff_exists.1 (hl leaf hleaf)
      rw [Target.leafOf_eq ht, Condition.bind]
      unfold Target.of? at ht
      split at ht
      · rename_i hh
        obtain ⟨id, hid, rfl⟩ := Option.map_eq_some_iff.1 ht
        simp [hh, Target.tree, Condition.bind, leafOfId, hid]
      · rename_i hh
        obtain ⟨d, hd, rfl⟩ := Option.map_eq_some_iff.1 ht
        rw [if_neg hh, ← ih leaf, treeOf, hd]
        rfl
    · have htree : treeOf (c :: earlier) name = treeOf earlier name := by
        simp [treeOf, latest?, hname]
      rw [if_neg hname, htree, ih name]

end Made

/-! ## Scopes -/

namespace Scope

variable {s : Scope}

theorem expansionOverIds?_eq (hs : s.Sound) (name : String) :
    s.expansionOverIds? name = some ((s.expansion name).bind (Made.leafOfId s.hookId?)) := by
  refine Condition.bindM_eq_some fun text ht => ?_
  obtain ⟨id, hid⟩ := Option.isSome_iff_exists.1 (hs.made.isSome_of_mem_expandName name text ht)
  rw [hid, Made.leafOfId, hid]
  rfl

/-- **The formula of a name is that of its definition with all names
expanded**, each to what it stood for when the definition was made, and every
hook replaced by its id. -/
theorem formula_eq_expanded {s : Scope} (h : s.Reachable) {name : String} (hn : name ∈ s.names) :
    ∃ c, s.expansionOverIds? name = some c ∧ s.formula name = .ok (Formula.ofCondition? c) := by
  obtain ⟨c, hc, hlookup, hformula⟩ := formula_eq h.sound hn
  refine ⟨_, expansionOverIds?_eq h.sound name, ?_⟩
  have htree := h.sound.made.normal?_treeOf name
  have hk : Made.treeOf s.history name = (Target.reference c.compiled).tree := by
    rw [Made.treeOf, ← h.sound.lookup?_eq, hlookup]
    rfl
  rw [hformula, expansion, Formula.ofCondition?, ← htree, hk]
  cases hcompiled : c.compiled with
  | none => rfl
  | some k =>
    obtain ⟨_, _, hof⟩ := h.sound.made.compiled c hc
    have hf := (Compiled.ofTargets?_eq_some.1 (hof.symm.trans hcompiled)).2.1
    rw [Formula.ofCondition?] at hf
    simp [Target.tree, hf]

/-- A name that mentions itself means the one outside. -/
theorem formula_eq_expanded_shade :
    ∃ parent s c, root litDefinitions = .ok parent ∧ parent.nest shadeDefinitions = .ok s ∧
      s.expansionOverIds? "lit" = some c ∧ s.formula "lit" = .ok (Formula.ofCondition? c) ∧
        (s.expansion "lit").leaves = [".dark &", "&:hover"] := by
  have hany : ((root litDefinitions).toOption.bind fun parent =>
      (parent.nest shadeDefinitions).toOption).any (fun s =>
        decide ("lit" ∈ s.names ∧ (s.expansion "lit").leaves = [".dark &", "&:hover"])) = true := by
    decide +kernel
  obtain ⟨parent, s, hparent, hs, hp⟩ := exists_nested_of_any hany
  obtain ⟨hn, hleaves⟩ := of_decide_eq_true hp
  obtain ⟨c, hc, hformula⟩ := formula_eq_expanded (.nest (.root hparent) hs) hn
  exact ⟨parent, s, c, hparent, hs, hc, hformula, hleaves⟩

end Scope

end VarLogic
