/-
The names a scope generates: a pair for every hook of every level, and a pair
for every composite node of every condition of every level. Only the ids of
hooks and of root nodes are compared when they are made. The ids below a root
node go on in uppercase letters, which no hashed id has, so they are distinct
as well (`nodup_generatedNames`).
-/
import VarLogic.Proofs.Network.Nodes
import VarLogic.Proofs.Scope.Conditions

namespace VarLogic

/-! ## Conditions -/

/-- The formula over toggles that a definition is compiled to, given the ids of
hooks and the conditions made before, the latest first. -/
def togglesOf? (ids : String → Option String) (earlier : List NamedCondition)
    (definition : Condition String) : Option (Formula String) :=
  Formula.ofCondition? ((definition.bind (Target.leafOf ids (Scope.latest? earlier))).bind Target.toggle)

/-- The ids of the composite nodes of all conditions, the latest first. -/
def compositeIds (ids : String → Option String) : List NamedCondition → List String
  | [] => []
  | c :: earlier =>
    (match c.toggle?, togglesOf? ids earlier c.definition with
      | some toggle, some f => f.composites toggle
      | _, _ => []) ++ compositeIds ids earlier

/-- What conditions declare are the pairs of their composite nodes. -/
theorem Made.compositeNames_eq {ids : String → Option String} {history : List NamedCondition}
    (h : Made ids history) : compositeNames history = (compositeIds ids history).flatMap Toggle.pair := by
  induction h with
  | nil => rfl
  | @cons c earlier base _ _ _ hc ih =>
    rw [compositeNames_cons, compositeIds, List.flatMap_append, ih]
    congr 1
    cases hk : c.compiled with
    | none => simp [NamedCondition.declarations, NamedCondition.toggle?, hk]
    | some k =>
      obtain ⟨-, -, g, hg, htoggle, hdecl⟩ := Compiled.ofTargets?_eq_some.1 (hc.symm.trans hk)
      have hf : togglesOf? ids earlier c.definition = some g := hg
      simp [NamedCondition.declarations, NamedCondition.toggle?, hk, hf, htoggle, hdecl,
        Formula.composites_toggle, Formula.properties_network]

/-! ## Scopes -/

namespace Scope

/-- All names a scope and the scopes around it generate. -/
def generatedNames (s : Scope) : List String :=
  (s.hooks.map (·.id) ++ compositeIds s.hookId? s.history).flatMap Toggle.pair

variable {s : Scope}

theorem generatedNames_eq (hs : s.Sound) :
    s.generatedNames = s.pairNames ++ compositeNames s.history := by
  rw [generatedNames, List.flatMap_append, ← hs.made.compositeNames_eq, List.flatMap_map, pairNames,
    List.map_flatMap]
  rfl

/-- What the sheet and the inline declarations declare are the generated
names. -/
theorem perm_generatedNames (hs : s.Sound) :
    ((s.sheet.defaults ++ s.declarations).map (·.property)).Perm s.generatedNames := by
  rw [generatedNames_eq hs, hs.sheet_eq, pairNames, compositeNames, ← List.map_append]
  exact s.perm_declared.map (·.property)

/-- **No name is generated twice** along the levels of a scope, neither for a
hook nor for a composite node; the names are those that the sheet and the
inline declarations declare; and no two hooks have the same text. -/
theorem nodup_generatedNames {s : Scope} (h : s.Reachable) :
    s.generatedNames.Nodup ∧
      ((s.sheet.defaults ++ s.declarations).map (·.property)).Perm s.generatedNames ∧
        (s.hooks.map (·.hook.text)).Nodup := by
  refine ⟨?_, perm_generatedNames h.sound, h.sound.texts⟩
  rw [generatedNames_eq h.sound, pairNames, compositeNames, ← List.map_append]
  exact h.sound.nodup_declared

theorem nodup_generatedNames_shade :
    ∃ parent s, root litDefinitions = .ok parent ∧ parent.nest shadeDefinitions = .ok s ∧
      s.generatedNames.length = 14 ∧ s.generatedNames.Nodup ∧
        ((s.sheet.defaults ++ s.declarations).map (·.property)).Perm s.generatedNames ∧
          (s.hooks.map (·.hook.text)).Nodup := by
  have hany : ((root litDefinitions).toOption.bind fun parent =>
      (parent.nest shadeDefinitions).toOption).any
        (fun s => decide (s.generatedNames.length = 14)) = true := by decide +kernel
  obtain ⟨parent, s, hparent, hs, hlength⟩ := exists_nested_of_any hany
  exact ⟨parent, s, hparent, hs, of_decide_eq_true hlength,
    nodup_generatedNames (.nest (.root hparent) hs)⟩

end Scope

end VarLogic
