/-
The sheet of a scope extends the one of the scope around it. While a scope is
built, its own level has the hooks that are new among the leaves read so far,
each once and with the id of its text, and no others (`brought_create`). Since no
property and no hook text occurs twice along the levels, merging the level's own
part into the sheet around it is putting one behind the other (`merge_sheet`), and
`sheet_extends` says what is added.
-/
import VarLogic.Proofs.Scope.Conditions
import VarLogic.Proofs.Scope.Reading
import VarLogic.Scope.Hashed

namespace VarLogic

open Condition (effect effect_eq_ok)

/-! ## Hooks brought in -/

namespace Level

/-- The hooks among some texts that none of the levels has, each where it comes
first. -/
def newHooks (levels : List Level) (texts : List String) : List String :=
  (texts.filter fun text => Hook.isHookSyntax text ∧
    ∀ level ∈ levels, ∀ h ∈ level.hooks, h.hook.text ≠ text).eraseDups

variable {levels : List Level} {texts : List String} {text : String}

/-- Of a text more, something is left if it is a hook that comes first here. -/
theorem newHooks_append_singleton (levels : List Level) (texts : List String) (text : String) :
    newHooks levels (texts ++ [text]) = newHooks levels texts ++
      if (Hook.isHookSyntax text = true ∧ ∀ level ∈ levels, ∀ h ∈ level.hooks, h.hook.text ≠ text) ∧
        text ∉ newHooks levels texts then [text] else [] := by
  simp only [newHooks, List.filter_append, List.eraseDups_append, List.mem_eraseDups]
  generalize texts.filter _ = news
  by_cases hp : Hook.isHookSyntax text = true ∧
      ∀ level ∈ levels, ∀ h ∈ level.hooks, h.hook.text ≠ text
  · rw [List.filter_singleton, decide_eq_true hp]
    by_cases hm : text ∈ news
    · rw [if_neg fun h => h.2 hm]
      simp [List.removeAll, hm]
    · rw [if_pos ⟨hp, hm⟩]
      simp [List.removeAll, hm, List.eraseDups_cons]
  · rw [List.filter_singleton, decide_eq_false hp, if_neg fun h => hp h.1]
    rfl

end Level

namespace Scope

variable {s s₁ : Scope} {read : List String} {definitions : Definitions}

/-- The level has brought in the hooks that are new among some leaves, with the
ids of their texts, and no others. -/
def Brought (s : Scope) (read : List String) : Prop :=
  s.level.hooks.map (fun h => (h.hook.text, h.id)) =
    (Level.newHooks s.ancestors read).map fun text => (text, s.idOf text)

theorem Brought.texts_eq (h : s.Brought read) :
    s.level.hooks.map (·.hook.text) = Level.newHooks s.ancestors read := by
  simpa [Function.comp_def] using congrArg (List.map Prod.fst) h

theorem Brought.isNewHook_iff (h : s.Brought read) {text : String} :
    s.IsNewHook text ↔ (Hook.isHookSyntax text = true ∧
      ∀ level ∈ s.ancestors, ∀ h ∈ level.hooks, h.hook.text ≠ text) ∧
        text ∉ Level.newHooks s.ancestors read := by
  rw [← h.texts_eq, IsNewHook, levels, List.forall_mem_cons]
  simp only [List.mem_map, not_exists, not_and]
  grind

theorem Brought.step (h : s.Brought read) {leaf : String}
    (hr : effect (resolveLeaf leaf) s = .ok s₁) : s₁.Brought (read ++ [leaf]) := by
  rcases effect_resolveLeaf hr with ⟨hk, rfl⟩ | ⟨hn, hook, rfl, rfl⟩
  · rw [h.isNewHook_iff] at hk
    rwa [Brought, Level.newHooks_append_singleton, if_neg hk, List.append_nil]
  · rw [h.isNewHook_iff] at hn
    rw [Brought, addHook, Level.newHooks_append_singleton, if_pos hn, List.map_append,
      List.map_append, h]
    rfl

theorem Brought.leaves (h : s.Brought read) {leaves : List String}
    (hr : readLeaves leaves s = .ok s₁) : s₁.Brought (read ++ leaves) := by
  induction leaves generalizing s read with
  | nil =>
    obtain rfl := Except.ok.inj hr
    rwa [List.append_nil]
  | cons leaf leaves ih =>
    obtain ⟨s₂, hleaf, hr⟩ := foldlM_cons_eq_ok.1 hr
    rw [← List.singleton_append, ← List.append_assoc]
    exact ih (h.step hleaf) hr

/-- Conditions bring in the hooks among their leaves. -/
theorem Brought.define (h : s.Brought read) {name : String} {definition : Condition String}
    (hd : s.define name definition = .ok s₁) : s₁.Brought (read ++ definition.leaves) := by
  obtain ⟨-, -, targets, s₂, hr, -, rfl⟩ := steps_of_define hd
  have hread : s₂.Brought (read ++ definition.leaves) :=
    h.leaves (effect_resolve definition s ▸ effect_eq_ok.2 ⟨targets, hr⟩)
  exact hread

theorem Brought.defineAll (h : s.Brought read) (hd : s.defineAll definitions = .ok s₁) :
    s₁.Brought (read ++ definitions.flatMap (·.2.leaves)) := by
  induction definitions generalizing s read with
  | nil =>
    obtain rfl := Except.ok.inj hd
    rwa [List.flatMap_nil, List.append_nil]
  | cons d definitions ih =>
    obtain ⟨s₂, hdefine, hd⟩ := defineAll_cons.1 hd
    rw [List.flatMap_cons, ← List.append_assoc]
    exact ih (h.define hdefine) hd

/-- **A scope has brought in the hooks of its definitions** that are not around it. -/
theorem brought_create {outer : Option Scope} (h : create definitions outer = .ok s) :
    s.Brought (definitions.flatMap (·.2.leaves)) := by
  rw [create_eq] at h
  have hstart : (start definitions outer).Brought [] := by cases outer <;> rfl
  simpa using hstart.defineAll h

/-! ## Sheets -/

/-- The sheet that a scope starts from: that of the scope around it, if there is
one. -/
def sheetAround (outer : Option Scope) : Sheet := outer.elim .empty sheet

/-- Merging a level's own part leaves nothing out. -/
theorem merge_sheet (hs : s.Sound) {outer : Option Scope}
    (ha : s.ancestors = outer.elim [] levels) (ho : ∀ p ∈ outer, p.Sound) :
    s.sheet = (sheetAround outer).merge (s.level.sheet outer.isNone) ∧
      s.sheet = ⟨(sheetAround outer).defaults ++ s.level.ownDefaults outer.isNone,
        (sheetAround outer).rules ++ s.level.hooks.map Sheet.ruleOf⟩ := by
  have hempty : s.ancestors.isEmpty = outer.isNone := by
    rw [ha]
    cases outer <;> rfl
  have haround : sheetAround outer = Level.sheetOf s.ancestors := by
    rw [ha]
    cases outer <;> rfl
  have hfull : sheetAround outer = ⟨Level.defaultsOf s.ancestors, Level.rulesOf s.ancestors⟩ := by
    cases outer with
    | none => rw [ha]; rfl
    | some p => rw [ha]; exact (ho p rfl).sheet_eq
  constructor
  · rw [sheet, levels, Level.sheetOf, haround, hempty]
  · rw [hs.sheet_eq, levels, Level.defaultsOf, Level.rulesOf, hfull, hempty]

/-- **The sheet of a scope extends the one around it, and merging leaves nothing
out.** What is added to the `*` block are the pairs at rest of the hooks brought
in, and outermost the declarations of all conditions, in the order of their
definitions; and what is added to the rules is one rule a hook. Brought in are the
hooks that the definitions have and the levels around have not, in the order in
which they come first. -/
theorem sheet_extends {outer : Option Scope} (ho : ∀ p ∈ outer, p.Reachable)
    (h : create definitions outer = .ok s) :
    let around := sheetAround outer
    let own := s.level.sheet outer.isNone
    s.sheet = around.merge own ∧
      around.merge own = ⟨around.defaults ++ own.defaults, around.rules ++ own.rules⟩ ∧
      own.defaults =
        (s.level.hooks.flatMap fun e =>
          [⟨Toggle.property e.id false, "initial"⟩, ⟨Toggle.property e.id true, ""⟩]) ++
        (if outer.isNone then s.level.conditions.flatMap (·.declarations) else []) ∧
      own.rules = s.level.hooks.map (fun e => ⟨e.hook, Sheet.whileActive e.id⟩) ∧
      s.level.definitions = definitions ∧
      s.level.hooks.map (fun e => (e.hook.text, e.id)) =
        (Level.newHooks s.ancestors (definitions.flatMap (·.2.leaves))).map
          (fun text => (text, s.idOf text)) ∧
      ∀ e ∈ s.level.hooks, Hook.parse e.hook.text = .ok e.hook := by
  have hshape := shape_defineAll (create_eq definitions outer ▸ h)
  have hs := (reachable_create ho h).sound
  obtain ⟨hmerge, hsheet⟩ := merge_sheet hs (hshape.2.1.trans (by cases outer <;> rfl))
    fun p hp => (ho p hp).sound
  refine ⟨hmerge, ?_, ?_, ?_, hshape.2.2.trans (by cases outer <;> rfl), brought_create h,
    fun e he => hs.parsed e (List.mem_append_left _ he)⟩
  · rw [← hmerge, hsheet, Level.sheet_eq]
  · rw [Level.sheet_eq]
    rfl
  · rw [Level.sheet_eq]
    rfl

/-- The outermost sheet has two hooks and the node of `lit`; the shade adds one hook
and, although `dim` has a node as well, no node. -/
theorem sheet_extends_shade :
    ∃ (parent s : Scope) (first second e : HookEntry), root litDefinitions = .ok parent ∧
      parent.nest shadeDefinitions = .ok s ∧
      parent.sheet.defaults =
        Sheet.atRest first.id ++ Sheet.atRest second.id ++ parent.level.declarations ∧
      parent.level.declarations ≠ [] ∧ s.level.declarations ≠ [] ∧
      s.sheet.defaults = parent.sheet.defaults ++ Sheet.atRest e.id ∧
      s.sheet.rules = parent.sheet.rules ++ [⟨e.hook, Sheet.whileActive e.id⟩] := by
  have hany : (root litDefinitions).toOption.any (fun parent =>
      decide (parent.level.hooks.length = 2 ∧ parent.level.declarations ≠ []) &&
        (parent.nest shadeDefinitions).toOption.any fun s =>
          decide (s.level.hooks.length = 1 ∧ s.level.declarations ≠ [])) = true := by
    decide +kernel
  obtain ⟨parent, hparent, hany⟩ := exists_of_any hany
  obtain ⟨hp, hany⟩ := Bool.and_eq_true_iff.1 hany
  obtain ⟨s, hs, hp'⟩ := exists_of_any hany
  obtain ⟨htwo, hnode⟩ := of_decide_eq_true hp
  obtain ⟨hone, hnode'⟩ := of_decide_eq_true hp'
  obtain ⟨first, second, hhooks⟩ := List.length_eq_two.1 htwo
  obtain ⟨e, hhook⟩ := List.length_eq_one_iff.1 hone
  have hnone : ∀ p ∈ (none : Option Scope), p.Reachable := by simp
  have hsome : ∀ p ∈ some parent, p.Reachable := by simpa using .root hparent
  have hparentSheet := sheet_extends hnone hparent
  have hsheet := sheet_extends hsome hs
  refine ⟨parent, s, first, second, e, hparent, hs, ?_, hnode, hnode', ?_, ?_⟩
  · obtain ⟨hmerge, happend, hdefaults, -⟩ := hparentSheet
    rw [hmerge, happend, hdefaults, hhooks]
    rfl
  · obtain ⟨hmerge, happend, hdefaults, -⟩ := hsheet
    rw [hmerge, happend, hdefaults, hhook]
    rfl
  · obtain ⟨hmerge, happend, -, hrules, -⟩ := hsheet
    rw [hmerge, happend, hrules, hhook]
    rfl

end Scope

end VarLogic
