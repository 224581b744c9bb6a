/-
What a condition comes to means what its definition means. A condition is
compiled once, from what its leaves stand for at that moment: the id of a
hook, or an earlier condition, compiled as well. Its tree over hook ids then
has the truth value of its definition with all names expanded
(`Made.truth?_tree`), which later conditions do not change.
-/
import VarLogic.Scope.Build
import VarLogic.Scope.Expansion
import VarLogic.Proofs.Condition.Leaves
import VarLogic.Proofs.ShortId

namespace VarLogic

open Condition (truth?)

/-! ## Targets -/

namespace Target

/-- There is a leaf in its tree if there is one in its toggle. -/
def Solid (t : Target) : Prop := t.tree.leaves.isEmpty = t.toggle.leaves.isEmpty

theorem solid_hook (id : String) : Solid (.hook id) := rfl

/-- What a leaf stands for, given the ids of hooks and the conditions of
names. -/
def of? (ids : String → Option String) (known : String → Option NamedCondition) (leaf : String) :
    Option Target :=
  if Hook.isHookSyntax leaf then (ids leaf).map .hook
  else (known leaf).map fun c => .reference c.compiled

/-- What a leaf stands for, as a condition. -/
def leafOf (ids : String → Option String) (known : String → Option NamedCondition)
    (leaf : String) : Condition Target :=
  ((of? ids known leaf).map .leaf).getD .vacuous

section

variable {ids : String → Option String} {known : String → Option NamedCondition}

theorem leafOf_eq {leaf : String} {t : Target} (h : of? ids known leaf = some t) :
    leafOf ids known leaf = .leaf t := by
  simp [leafOf, h]

theorem of_mem_leaves {definition : Condition String} {t : Target}
    (h : t ∈ (definition.bind (leafOf ids known)).leaves) :
    ∃ leaf ∈ definition.leaves, of? ids known leaf = some t := by
  rw [Condition.leaves_bind, List.mem_flatMap] at h
  obtain ⟨leaf, hl, ht⟩ := h
  refine ⟨leaf, hl, ?_⟩
  cases ho : of? ids known leaf with
  | none => simp [leafOf, ho, Condition.vacuous, Condition.leaves, Condition.leavesOf] at ht
  | some u => simpa [leafOf, ho, Condition.leaves, eq_comm] using ht

/-- Targets are solid if the conditions known are. -/
theorem solid_of_mem_leaves {definition : Condition String} {t : Target}
    (hs : ∀ name c, known name = some c → Solid (.reference c.compiled))
    (ht : t ∈ (definition.bind (leafOf ids known)).leaves) : t.Solid := by
  obtain ⟨leaf, -, ho⟩ := of_mem_leaves ht
  unfold of? at ho
  split at ho
  · obtain ⟨id, -, rfl⟩ := Option.map_eq_some_iff.1 ho
    exact solid_hook id
  · obtain ⟨c, hc, rfl⟩ := Option.map_eq_some_iff.1 ho
    exact hs leaf c hc

end

end Target

/-! ## Compiling -/

namespace Compiled

variable {c : Condition Target} {base : String} {k : Compiled}

theorem ofTargets?_eq_some :
    ofTargets? c base = some k ↔
      (c.bind Target.tree).normal? = some k.tree ∧ Formula.ofCondition? k.tree = some k.formula ∧
        ∃ f, Formula.ofCondition? (c.bind Target.toggle) = some f ∧
          k.toggle = f.toggle base ∧ k.declarations = f.network base := by
  obtain ⟨toggle, declarations, tree, formula⟩ := k
  simp only [ofTargets?, Network.ofCondition?, Option.bind_eq_bind, Option.bind_eq_some_iff,
    Option.map_eq_some_iff, Option.some.injEq, mk.injEq]
  constructor
  · rintro ⟨t, ht, f, hf, n, ⟨g, hg, rfl⟩, rfl, rfl, rfl, rfl⟩
    exact ⟨ht, hf, g, hg, rfl, rfl⟩
  · rintro ⟨ht, hf, g, hg, rfl, rfl⟩
    exact ⟨tree, ht, formula, hf, _, ⟨g, hg, rfl⟩, rfl, rfl, rfl, rfl⟩

theorem isEmpty_leaves_bind {f g : Target → Condition String}
    (h : ∀ t ∈ c.leaves, (f t).leaves.isEmpty = (g t).leaves.isEmpty) :
    (c.bind f).leaves.isEmpty = (c.bind g).leaves.isEmpty := by
  rw [Condition.leaves_bind, Condition.leaves_bind, Bool.eq_iff_iff]
  simp only [List.isEmpty_iff, List.flatMap_eq_nil_iff]
  refine forall₂_congr fun t ht => ?_
  rw [← List.isEmpty_iff, ← List.isEmpty_iff, h t ht]

/-- A condition over targets comes to something if there is a hook in it. -/
theorem isSome_ofTargets? (hs : ∀ t ∈ c.leaves, t.Solid) (base : String) :
    (ofTargets? c base).isSome = !(c.bind Target.tree).leaves.isEmpty := by
  cases he : (c.bind Target.tree).leaves.isEmpty with
  | true =>
    have hn := Condition.isSome_normal? (c.bind Target.tree)
    rw [he, Bool.not_true, Option.isSome_eq_false_iff, Option.isNone_iff_eq_none] at hn
    simp [ofTargets?, hn]
  | false =>
    have hn := Condition.isSome_normal? (c.bind Target.tree)
    rw [he, Bool.not_false] at hn
    obtain ⟨tree, htree⟩ := Option.isSome_iff_exists.1 hn
    have hf := Condition.isSome_ofCondition? tree
    rw [Condition.leaves_of_normal? htree, he, Bool.not_false] at hf
    obtain ⟨formula, hformula⟩ := Option.isSome_iff_exists.1 hf
    have hg := Condition.isSome_ofCondition? (c.bind Target.toggle)
    rw [← isEmpty_leaves_bind hs, he, Bool.not_false] at hg
    obtain ⟨g, hg⟩ := Option.isSome_iff_exists.1 hg
    have : ofTargets? c base = some ⟨g.toggle base, g.network base, tree, formula⟩ :=
      ofTargets?_eq_some.2 ⟨htree, hformula, g, hg, rfl, rfl⟩
    rw [this, Option.isSome_some, Bool.not_false]

/-- It has a network if it comes to something. -/
theorem isSome_network (hs : ∀ t ∈ c.leaves, t.Solid) (base base' : String) :
    (Network.ofCondition? (c.bind Target.toggle) base').isSome = (ofTargets? c base).isSome := by
  rw [Network.ofCondition?, Option.isSome_map, Condition.isSome_ofCondition?,
    ← isEmpty_leaves_bind hs, isSome_ofTargets? hs]

/-- What it declares is what its network declares. -/
theorem map_declarations (hs : ∀ t ∈ c.leaves, t.Solid) (base : String) :
    (ofTargets? c base).map (·.declarations) =
      (Network.ofCondition? (c.bind Target.toggle) base).map (·.declarations) := by
  cases hk : ofTargets? c base with
  | none =>
    have hn := isSome_network hs base base
    rw [hk, Option.isSome_none, Option.isSome_eq_false_iff, Option.isNone_iff_eq_none] at hn
    rw [hn]
    rfl
  | some k =>
    obtain ⟨-, -, g, hg, -, hdecl⟩ := ofTargets?_eq_some.1 hk
    simp [Network.ofCondition?, hg, hdecl]

theorem leaves_tree (h : ofTargets? c base = some k) :
    k.tree.leaves = (c.bind Target.tree).leaves :=
  Condition.leaves_of_normal? (ofTargets?_eq_some.1 h).1

/-- The tree of what a condition comes to has the truth value of the condition
with the trees of its targets. -/
theorem truth?_tree (hs : ∀ t ∈ c.leaves, t.Solid) (base : String) (on : String → Bool) :
    truth? on (Target.reference (ofTargets? c base)).tree = truth? on (c.bind Target.tree) := by
  cases hk : ofTargets? c base with
  | none =>
    have he := isSome_ofTargets? hs base
    rw [hk, Option.isSome_none, ← @Condition.isSome_truth? _ on, eq_comm,
      Option.isSome_eq_false_iff, Option.isNone_iff_eq_none] at he
    rw [he]
    rfl
  | some k =>
    rw [← Condition.truth?_normal? (c.bind Target.tree), (ofTargets?_eq_some.1 hk).1]
    rfl

/-- What a condition comes to may stand in another one. -/
theorem solid_reference (hs : ∀ t ∈ c.leaves, t.Solid) (base : String) :
    Target.Solid (.reference (ofTargets? c base)) := by
  cases hk : ofTargets? c base with
  | none => rfl
  | some k =>
    have he := isSome_ofTargets? hs base
    rw [hk, Option.isSome_some, ← leaves_tree hk] at he
    change k.tree.leaves.isEmpty = false
    simpa using he.symm

/-- The formula evaluates to the truth value of the tree. -/
theorem truth?_eq_eval (h : ofTargets? c base = some k) (on : String → Bool) :
    truth? on k.tree = some (k.formula.eval on) := by
  rw [Condition.truth?_eq_eval, (ofTargets?_eq_some.1 h).2.1, Option.map_some]

/-- The formula over toggles, which the network follows, evaluates as the one
over hooks, where every toggle is on as its tree is true. -/
theorem eval_toggles (h : ofTargets? c base = some k) {g : Formula String}
    (hg : Formula.ofCondition? (c.bind Target.toggle) = some g) {state on : String → Bool}
    (hs : ∀ t ∈ c.leaves, truth? state t.toggle = truth? on t.tree) :
    g.eval state = k.formula.eval on := by
  have hg' := @Condition.truth?_eq_eval _ state (c.bind Target.toggle)
  rw [Condition.truth?_bind_congr hs, hg, Option.map_some, ← Condition.truth?_normal?,
    (ofTargets?_eq_some.1 h).1, Option.bind_some, truth?_eq_eval h] at hg'
  exact (Option.some.inj hg').symm

end Compiled

/-! ## Histories -/

/-- The condition of a name, given all conditions, the latest first. -/
def Scope.latest? (history : List NamedCondition) (name : String) : Option NamedCondition :=
  history.find? (·.name = name)

open Scope (latest?)

theorem Scope.mem_of_latest? {history : List NamedCondition} {name : String} {c : NamedCondition}
    (h : latest? history name = some c) : c ∈ history := List.mem_of_find?_eq_some h

/-- Conditions, the latest first, each of which was compiled from what its
leaves stood for when it was made; none of them stood for nothing. -/
inductive Made (ids : String → Option String) : List NamedCondition → Prop where
  | nil : Made ids []
  | cons {c : NamedCondition} {earlier : List NamedCondition} {base : String} :
      Made ids earlier →
      (∀ leaf ∈ c.definition.leaves, (Target.of? ids (latest? earlier) leaf).isSome) →
      ShortId.IsWord base →
      c.compiled =
        Compiled.ofTargets? (c.definition.bind (Target.leafOf ids (latest? earlier))) base →
      Made ids (c :: earlier)

namespace Made

variable {ids ids' : String → Option String} {history : List NamedCondition}

/-- More hooks change nothing. -/
theorem mono (h : Made ids history) (hm : ∀ text id, ids text = some id → ids' text = some id) :
    Made ids' history := by
  induction h with
  | nil => exact .nil
  | @cons c earlier base _ hl hb hc ih =>
    have hof : ∀ leaf ∈ c.definition.leaves,
        Target.of? ids' (latest? earlier) leaf = Target.of? ids (latest? earlier) leaf := by
      intro leaf hleaf
      have := hl leaf hleaf
      unfold Target.of? at this ⊢
      split
      · rename_i hh
        rw [if_pos hh, Option.isSome_map] at this
        obtain ⟨id, hid⟩ := Option.isSome_iff_exists.1 this
        rw [hid, hm leaf id hid]
      · rfl
    refine .cons ih (fun leaf hleaf => by rw [hof leaf hleaf]; exact hl leaf hleaf) hb ?_
    rw [hc]
    congr 1
    exact Condition.bind_congr fun leaf hleaf => by simp only [Target.leafOf, hof leaf hleaf]

/-- Every condition may stand in a later one. -/
theorem solid (h : Made ids history) : ∀ c ∈ history, Target.Solid (.reference c.compiled) := by
  induction h with
  | nil => simp
  | @cons c earlier base _ hl hb hc ih =>
    intro d hd
    rw [List.mem_cons] at hd
    rcases hd with rfl | hd
    · rw [hc]
      exact Compiled.solid_reference (fun t => Target.solid_of_mem_leaves fun name c hk =>
        ih c (Scope.mem_of_latest? hk)) base
    · exact ih d hd

theorem solid_of_latest? (h : Made ids history) (name : String) (c : NamedCondition)
    (hc : latest? history name = some c) : Target.Solid (.reference c.compiled) :=
  h.solid c (Scope.mem_of_latest? hc)

theorem compiled (h : Made ids history) : ∀ c ∈ history,
    ∃ targets base, c.compiled = Compiled.ofTargets? targets base := by
  induction h with
  | nil => simp
  | cons _ _ _ hc ih =>
    intro d hd
    rcases List.mem_cons.1 hd with rfl | hd
    · exact ⟨_, _, hc⟩
    · exact ih d hd

/-- The leaves of a tree are ids of hooks. -/
theorem ids_of_mem_leaves (h : Made ids history) : ∀ c ∈ history,
    ∀ id ∈ (Target.reference c.compiled).tree.leaves, ∃ text, ids text = some id := by
  induction h with
  | nil => simp
  | @cons c earlier base _ _ _ hc ih =>
    intro d hd id hid
    rcases List.mem_cons.1 hd with rfl | hd
    · cases hk : d.compiled with
      | none => simp [hk, Target.tree, Condition.vacuous, Condition.leaves, Condition.leavesOf] at hid
      | some k =>
        rw [hk] at hc hid
        rw [Target.tree, Compiled.leaves_tree hc.symm, Condition.leaves_bind,
          List.mem_flatMap] at hid
        obtain ⟨t, ht, hid⟩ := hid
        obtain ⟨leaf, -, ho⟩ := Target.of_mem_leaves ht
        unfold Target.of? at ho
        split at ho
        · obtain ⟨a, ha, rfl⟩ := Option.map_eq_some_iff.1 ho
          obtain rfl : id = a := by simpa [Target.tree, Condition.leaves] using hid
          exact ⟨leaf, ha⟩
        · obtain ⟨b, hb, rfl⟩ := Option.map_eq_some_iff.1 ho
          exact ih b (Scope.mem_of_latest? hb) id hid
    · exact ih d hd id hid

/-- The tree of the condition a name stands for. -/
def treeOf (history : List NamedCondition) (name : String) : Condition String :=
  ((latest? history name).map fun c => (Target.reference c.compiled).tree).getD .vacuous

/-- **The tree of a condition means what its definition means**, given that a
hook id is on where the hook is active. -/
theorem truth?_tree (h : Made ids history) {on active : String → Bool}
    (hon : ∀ text id, ids text = some id → on id = active text) (name : String) :
    truth? on (treeOf history name) = truth? active (Scope.expandName history name) := by
  induction h generalizing name with
  | nil => rfl
  | @cons c earlier base he hl hb hc ih =>
    rw [Scope.expandName]
    by_cases hname : c.name = name
    · have htree : treeOf (c :: earlier) name = (Target.reference c.compiled).tree := by
        simp [treeOf, latest?, hname]
      rw [if_pos hname, htree, hc,
        Compiled.truth?_tree (fun t => Target.solid_of_mem_leaves he.solid_of_latest?),
        Condition.bind_bind]
      refine Condition.truth?_bind_congr fun leaf hleaf => ?_
      obtain ⟨t, ht⟩ := Option.isSome_iff_exists.1 (hl leaf hleaf)
      rw [Target.leafOf_eq ht, Condition.bind]
      unfold Target.of? at ht
      split at ht
      · rename_i hh
        obtain ⟨id, hid, rfl⟩ := Option.map_eq_some_iff.1 ht
        simpa [hh, Target.tree, truth?] using hon leaf id hid
      · rename_i hh
        obtain ⟨d, hd, rfl⟩ := Option.map_eq_some_iff.1 ht
        rw [if_neg hh, ← ih leaf, treeOf, hd]
        rfl
    · have htree : treeOf (c :: earlier) name = treeOf earlier name := by
        simp [treeOf, latest?, hname]
      rw [if_neg hname, htree, ih name]

end Made

end VarLogic
