/-
Ids and the texts they come from. The text of an id says whose id it is
(`ShortId.idText_inj`), and every level made its ids from such texts, at its own
depth (`Reachable.ownIds`), so all ids come from texts that were hashed
(`Reachable.exists_hashed_of_family`). The outermost level of a scope is the one
that its definitions make on their own (`Reachable.exists_outermost`).
-/
import VarLogic.Scope.Hashed
import VarLogic.Proofs.Condition.Written
import VarLogic.Proofs.Scope.Reading

namespace VarLogic

open Json (stringChars stringChars_append_inj)

theorem ShortId.idText_inj {hash hash' text text' : String} {depth depth' : Nat}
    (h : idText hash depth text = idText hash' depth' text') : text = text' ∧ hash = hash' := by
  have hchars := congrArg String.toList h
  simp only [idText, Json.Value.compact, String.toList_ofList, Json.Value.chars, Json.itemsChars,
    Json.moreItemsChars, List.cons.injEq, true_and] at hchars
  obtain ⟨htext, hrest⟩ := stringChars_append_inj hchars
  obtain ⟨hhash, -⟩ := stringChars_append_inj (List.cons.inj hrest).2
  exact ⟨htext, hhash⟩

/-! ## What is hashed -/

namespace Level

theorem mem_hashedTexts {hash : String} (inner : List Level) {level : Level} {outer : List Level}
    {text : String} (h : text ∈ level.identified) :
    ShortId.idText hash outer.length text ∈ hashedTexts hash (inner ++ level :: outer) := by
  induction inner with
  | nil => exact List.mem_append_right _ (List.mem_map_of_mem h)
  | cons first inner ih => simp [hashedTexts, ih]

theorem compact_mem_hashedTexts (hash : String) (inner : List Level) (outermost : Level) :
    outermost.definitions.toValue.compact ∈ hashedTexts hash (inner ++ [outermost]) := by
  induction inner with
  | nil => simp [hashedTexts]
  | cons first inner ih => simp [hashedTexts, ih]

end Level

namespace Scope

variable {s s' : Scope} {definitions : Definitions}

/-! ## The outermost level -/

/-- **The outermost level is what its definitions make on their own.** -/
theorem Reachable.exists_outermost (h : s.Reachable) : ∃ inner outermost,
    s.levels = inner ++ [outermost] ∧
      Scope.root outermost.definitions = .ok ⟨s.hash, outermost, []⟩ := by
  induction h with
  | @root definitions s h =>
    obtain ⟨-, hancestors, hconditions⟩ := shape_defineAll h
    obtain ⟨hash, level, ancestors⟩ := s
    obtain rfl : ancestors = [] := hancestors
    have hdefinitions : level.definitions = definitions := hconditions
    exact ⟨[], level, rfl, hdefinitions.symm ▸ h⟩
  | @nest parent s definitions _ h ih =>
    obtain ⟨inner, outermost, hlevels, hroot⟩ := ih
    obtain ⟨hhash, hancestors, -⟩ := shape_defineAll h
    refine ⟨s.level :: inner, outermost, ?_, ?_⟩
    · rw [levels, show s.ancestors = parent.levels from hancestors, hlevels, List.cons_append]
    · rw [hroot, show s.hash = parent.hash from hhash]

theorem compact_mem_hashedTexts {inner : List Level} {outermost : Level}
    (hl : s.levels = inner ++ [outermost]) :
    outermost.definitions.toValue.compact ∈ s.hashedTexts := by
  rw [hashedTexts, hl]
  exact Level.compact_mem_hashedTexts s.hash inner outermost

/-- The hash of a scope is that of its outermost definitions. -/
theorem hash_of_root {hash : String} {level : Level}
    (h : root level.definitions = .ok ⟨hash, level, []⟩) :
    hash = ShortId.ofText level.definitions.toValue.compact :=
  (shape_defineAll h).1

/-! ## Ids -/

/-- The ids that a scope's own level made come from its texts and names. -/
structure OwnIds (s : Scope) : Prop where
  hooks : ∀ h ∈ s.level.hooks, h.id = s.idOf h.hook.text
  conditions : ∀ c ∈ s.level.conditions, ∃ targets,
    c.compiled = Compiled.ofTargets? targets (s.idOf c.name)

theorem ownIds_empty (hash : String) (outer : List Level) : OwnIds ⟨hash, .empty, outer⟩ :=
  ⟨by simp [Level.empty], by simp [Level.empty]⟩

/-- A definition brings in what reading its leaves does, and then a condition. -/
theorem read_define {name : String} {definition : Condition String}
    (h : s.define name definition = .ok s') :
    ∃ s₁ targets, Read s definition.leaves s₁ ∧
      s' = s₁.addCondition ⟨name, definition, Compiled.ofTargets? targets (s₁.idOf name)⟩ := by
  obtain ⟨-, -, targets, s₁, hr, -, rfl⟩ := steps_of_define h
  exact ⟨s₁, targets, read_resolve hr, rfl⟩

theorem ownIds_define {name : String} {definition : Condition String} (hs : s.OwnIds)
    (h : s.define name definition = .ok s') : s'.OwnIds := by
  obtain ⟨s₁, targets, ⟨new, rfl, hnew⟩, rfl⟩ := read_define h
  constructor
  · intro entry hentry
    rcases List.mem_append.1 hentry with hold | hadded
    · exact hs.hooks entry hold
    · exact ((hnew _ _).1 ⟨entry, hadded, rfl, rfl⟩).2.2.symm
  · intro c hc
    rcases List.mem_append.1 hc with hold | hadded
    · exact hs.conditions c hold
    · rw [List.mem_singleton.1 hadded]
      exact ⟨targets, rfl⟩

theorem ownIds_defineAll (hs : s.OwnIds) (h : s.defineAll definitions = .ok s') : s'.OwnIds := by
  induction definitions generalizing s with
  | nil =>
    obtain rfl := Except.ok.inj h
    exact hs
  | cons d definitions ih =>
    obtain ⟨s₁, hd, h⟩ := defineAll_cons.1 h
    exact ih (ownIds_define hs hd) h

/-- **Every level made its ids from its own texts and names**, at its own
depth. -/
theorem Reachable.ownIds (h : s.Reachable) {inner outer : List Level} {level : Level}
    (hl : s.levels = inner ++ level :: outer) : OwnIds ⟨s.hash, level, outer⟩ := by
  have own : ∀ {s : Scope}, s.OwnIds → s.levels = level :: outer →
      OwnIds ⟨s.hash, level, outer⟩ := by
    intro s hs hl
    obtain ⟨rfl, rfl⟩ := List.cons.inj hl
    exact hs
  induction h generalizing inner with
  | @root definitions s h =>
    cases inner with
    | nil => exact own (ownIds_defineAll (ownIds_empty _ _) h) hl
    | cons first inner =>
      rw [levels, (shape_defineAll h).2.1] at hl
      simp at hl
  | @nest parent s definitions _ h ih =>
    obtain ⟨hhash, hancestors, -⟩ := shape_defineAll h
    cases inner with
    | nil => exact own (ownIds_defineAll (ownIds_empty _ _) h) hl
    | cons first inner =>
      rw [show s.hash = parent.hash from hhash]
      exact ih (hancestors.symm.trans (List.cons.inj hl).2)

theorem OwnIds.exists_identified (h : s.OwnIds) {f : Family} (hf : f ∈ s.level.families) :
    ∃ text ∈ s.level.identified, f.id = s.idOf text := by
  rcases List.mem_append.1 hf with hf | hf
  · obtain ⟨e, he, rfl⟩ := List.mem_map.1 hf
    exact ⟨_, List.mem_append_left _ (List.mem_map_of_mem he), h.hooks e he⟩
  · obtain ⟨c, hc, hf⟩ := List.mem_flatMap.1 hf
    obtain ⟨targets, hcompiled⟩ := h.conditions c hc
    refine ⟨c.name, List.mem_append_right _ (List.mem_map_of_mem (List.mem_filter.2 ⟨hc, ?_⟩)), ?_⟩
    · cases hk : c.compiled with
      | none => simp [Family.ofCondition, NamedCondition.toggle?, hk] at hf
      | some k => rfl
    · rw [(id_of_mem_ofCondition hcompiled hf).1]

/-- **Every id in a scope comes from a text that was hashed for it.** -/
theorem Reachable.exists_hashed_of_family (h : s.Reachable) {f : Family} (hf : f ∈ s.families) :
    ∃ text ∈ s.hashedTexts, f.id = ShortId.ofText text := by
  obtain ⟨level, hlevel, hf⟩ := List.mem_flatMap.1 hf
  obtain ⟨inner, outer, hl⟩ := List.append_of_mem hlevel
  obtain ⟨text, htext, hid⟩ := (h.ownIds hl).exists_identified hf
  refine ⟨_, ?_, hid⟩
  rw [hashedTexts, hl]
  exact Level.mem_hashedTexts inner htext

/-- The text that the id of a hook comes from holds the text of the hook. -/
theorem Reachable.exists_hashed (h : s.Reachable) {entry : HookEntry} (he : entry ∈ s.hooks) :
    ∃ depth, entry.id = ShortId.ofText (ShortId.idText s.hash depth entry.hook.text) ∧
      ShortId.idText s.hash depth entry.hook.text ∈ s.hashedTexts := by
  obtain ⟨level, hlevel, he⟩ := List.mem_flatMap.1 he
  obtain ⟨inner, outer, hl⟩ := List.append_of_mem hlevel
  refine ⟨outer.length, (h.ownIds hl).hooks entry he, ?_⟩
  rw [hashedTexts, hl]
  exact Level.mem_hashedTexts inner (List.mem_append_left _ (List.mem_map_of_mem he))

/-! ## Texts hashed for two scopes -/

variable {t : Scope} {x : String}

theorem mem_hashedTogether_left (h : x ∈ s.hashedTexts) : x ∈ s.hashedTogether t := by
  simp [hashedTogether, h]

theorem mem_hashedTogether_right (h : x ∈ t.hashedTexts) : x ∈ s.hashedTogether t := by
  simp [hashedTogether, h]

theorem CollisionFree.symm (h : s.CollisionFree t) : t.CollisionFree s := by
  have hmem : ∀ {x}, x ∈ t.hashedTogether s → x ∈ s.hashedTogether t := fun hx => by
    unfold hashedTogether at hx ⊢
    grind
  exact fun x hx y hy => h x (hmem hx) y (hmem hy)

end Scope

end VarLogic
