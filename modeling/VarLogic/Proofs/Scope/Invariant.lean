/-
What holds of every scope that can be built: the hooks have texts of their own
and are what their texts parse to, the names of a level and all ids are
distinct, ids are words, and every condition was compiled from what its leaves
stood for (`Sound`). A scope grows by one hook or by one condition at a time,
and each step keeps this (`sound_addHook`, `sound_addCondition`), so every
reachable scope has it (`Reachable.sound`).
-/
import VarLogic.Proofs.Hook.Parse
import VarLogic.Proofs.Scope.Meaning
import VarLogic.Proofs.Network
import VarLogic.Scope.View

namespace VarLogic

/-! ## Families -/

/-- An id that was made, and all that is declared for it at rest. -/
structure Family where
  id : String
  declarations : List Declaration
deriving DecidableEq

namespace Family

/-- The pair of a hook. -/
def ofHook (h : HookEntry) : Family := ⟨h.id, Sheet.atRest h.id⟩

/-- The composite nodes of a condition, if it has any. -/
def ofCondition (c : NamedCondition) : List Family :=
  match c.toggle? with
  | none => []
  | some id => if c.declarations.isEmpty then [] else [⟨id, c.declarations⟩]

end Family

/-- The families of a level. -/
def Level.families (level : Level) : List Family :=
  level.hooks.map Family.ofHook ++ level.conditions.flatMap Family.ofCondition

namespace Scope

/-- The hooks of all levels, nearest first. -/
def hooks (s : Scope) : List HookEntry := s.levels.flatMap (·.hooks)

/-- The families of all levels. -/
def families (s : Scope) : List Family := s.levels.flatMap (·.families)

/-! ## Looking up -/

theorem hookId?_eq (s : Scope) (text : String) :
    s.hookId? text = (s.hooks.find? (·.hook.text = text)).map (·.id) := by
  simp only [hookId?, hooks, List.find?_flatMap, List.map_findSome?]
  rfl

/-- The id of a text is that of a hook with this text. -/
theorem mem_hooks_of_hookId? {s : Scope} {text id : String} (h : s.hookId? text = some id) :
    ∃ entry ∈ s.hooks, entry.hook.text = text ∧ entry.id = id := by
  rw [hookId?_eq, Option.map_eq_some_iff] at h
  obtain ⟨entry, hfind, hid⟩ := h
  exact ⟨entry, List.mem_of_find?_eq_some hfind, by simpa using List.find?_some hfind, hid⟩

theorem mem_ids_of_mem_families {level : Level} {id : String} :
    id ∈ level.families.map (·.id) ↔
      (∃ h ∈ level.hooks, h.id = id) ∨
        ∃ c ∈ level.conditions, c.declarations.isEmpty = false ∧ c.toggle? = some id := by
  simp only [Level.families, List.map_append, List.map_map, List.mem_append, List.mem_map,
    Function.comp_apply, Family.ofHook, List.map_flatMap, List.mem_flatMap]
  refine or_congr Iff.rfl (exists_congr fun c => and_congr_right fun _ => ?_)
  unfold Family.ofCondition
  cases ht : c.toggle? with
  | none => simp
  | some t => cases hd : c.declarations.isEmpty <;> simp [eq_comm]

theorem owner?_level_eq_none {level : Level} {id : String} :
    level.owner? id = none ↔ id ∉ level.families.map (·.id) := by
  rw [mem_ids_of_mem_families, Level.owner?]
  split
  · rename_i h hf
    have := List.find?_some hf
    simp only [decide_eq_true_eq] at this
    simp only [reduceCtorEq, not_or, false_iff, not_and]
    exact fun hn => absurd ⟨h, List.mem_of_find?_eq_some hf, this⟩ hn
  · rename_i hf
    simp only [List.find?_eq_none, decide_eq_true_eq] at hf
    simp only [Option.map_eq_none_iff, List.find?_eq_none, Bool.and_eq_true, Bool.not_eq_eq_eq_not,
      Bool.not_true, decide_eq_true_eq, not_or, not_exists, not_and]
    exact ⟨fun h => ⟨hf, h⟩, fun h => h.2⟩

/-- An id has no owner if it was not made. -/
theorem owner?_eq_none {s : Scope} {id : String} :
    s.owner? id = none ↔ id ∉ s.families.map (·.id) := by
  simp only [owner?, families, List.findSome?_eq_none_iff, owner?_level_eq_none, List.map_flatMap,
    List.mem_flatMap, not_exists, not_and]

theorem claim_eq_ok {s : Scope} {id : String} {owner : Owner} :
    s.claim id owner = .ok () ↔ id ∉ s.families.map (·.id) := by
  rw [← owner?_eq_none, claim]
  cases s.owner? id <;> simp

/-! ## The invariant -/

structure Sound (s : Scope) : Prop where
  parsed : ∀ h ∈ s.hooks, Hook.parse h.hook.text = .ok h.hook
  texts : (s.hooks.map (·.hook.text)).Nodup
  names : ∀ level ∈ s.levels, level.names.Nodup
  words : ∀ f ∈ s.families, ShortId.IsWord f.id
  ids : (s.families.map (·.id)).Nodup
  made : Made s.hookId? s.history

/-- Where the names of a level are distinct, the latest condition of a name is
the one the level gives. -/
theorem find?_reverse_of_nodup {cs : List NamedCondition} (h : (cs.map (·.name)).Nodup)
    (name : String) : cs.reverse.find? (·.name = name) = cs.find? (·.name = name) := by
  induction cs with
  | nil => rfl
  | cons c cs ih =>
    rw [List.map_cons, List.nodup_cons] at h
    rw [List.reverse_cons, List.find?_append, ih h.2, List.find?_cons]
    by_cases hc : c.name = name
    · have hnone : cs.find? (·.name = name) = none := by
        rw [List.find?_eq_none]
        exact fun d hd hn => h.1 (List.mem_map.2 ⟨d, hd, by simpa [hc] using hn⟩)
      simp [hnone, hc]
    · simp [hc]

theorem lookup?_eq {s : Scope} (hn : ∀ level ∈ s.levels, level.names.Nodup) :
    s.lookup? = latest? s.history := by
  funext name
  rw [lookup?, latest?, history, List.find?_flatMap]
  generalize s.levels = levels at hn
  induction levels with
  | nil => rfl
  | cons level levels ih =>
    rw [List.findSome?_cons, List.findSome?_cons, ih fun l hl => hn l (by simp [hl]),
      find?_reverse_of_nodup (hn level (by simp)) name]
    rfl

theorem Sound.lookup?_eq {s : Scope} (hs : s.Sound) : s.lookup? = latest? s.history :=
  Scope.lookup?_eq hs.names

/-! ## A hook more -/

/-- The scope with a hook more. -/
def addHook (s : Scope) (h : HookEntry) : Scope :=
  { s with level.hooks := s.level.hooks ++ [h] }

theorem hooks_addHook (s : Scope) (h : HookEntry) : (s.addHook h).hooks.Perm (h :: s.hooks) := by
  simp only [hooks, addHook, levels, List.flatMap_cons, List.append_assoc, List.cons_append,
    List.nil_append]
  exact List.perm_middle

theorem families_addHook (s : Scope) (h : HookEntry) :
    (s.addHook h).families.Perm (.ofHook h :: s.families) := by
  simp only [families, addHook, levels, Level.families, List.flatMap_cons, List.map_append,
    List.map_cons, List.map_nil, List.append_assoc, List.cons_append, List.nil_append]
  exact List.perm_middle

theorem hookId?_addHook {s : Scope} {h : HookEntry} (hn : s.hookId? h.hook.text = none)
    {text id : String} (ht : s.hookId? text = some id) : (s.addHook h).hookId? text = some id := by
  have hne : h.hook.text ≠ text := fun he => by rw [he, ht] at hn; cases hn
  rw [hookId?, levels, List.findSome?_cons] at ht ⊢
  simpa [addHook, Level.hookId?, List.find?_append, hne] using ht

theorem sound_addHook {s : Scope} {h : HookEntry} (hs : s.Sound)
    (hp : Hook.parse h.hook.text = .ok h.hook) (hn : s.hookId? h.hook.text = none)
    (hw : ShortId.IsWord h.id) (hid : h.id ∉ s.families.map (·.id)) : (s.addHook h).Sound where
  parsed := fun h' hh => by
    rcases List.mem_cons.1 ((hooks_addHook s h).mem_iff.1 hh) with rfl | hh
    · exact hp
    · exact hs.parsed h' hh
  texts := by
    rw [((hooks_addHook s h).map _).nodup_iff, List.map_cons, List.nodup_cons]
    refine ⟨fun hm => ?_, hs.texts⟩
    rw [hookId?_eq, Option.map_eq_none_iff, List.find?_eq_none] at hn
    obtain ⟨h', hh, he⟩ := List.mem_map.1 hm
    exact hn h' hh (by simpa using he)
  names := fun level hl => by
    rcases List.mem_cons.1 hl with rfl | hl
    · exact hs.names s.level (by simp [levels])
    · exact hs.names level (List.mem_cons_of_mem _ hl)
  words := fun f hf => by
    rcases List.mem_cons.1 ((families_addHook s h).mem_iff.1 hf) with rfl | hf
    · exact hw
    · exact hs.words f hf
  ids := by
    rw [((families_addHook s h).map _).nodup_iff, List.map_cons, List.nodup_cons]
    exact ⟨hid, hs.ids⟩
  made := hs.made.mono fun _ _ => hookId?_addHook hn

/-! ## A condition more -/

/-- The scope with a condition more. -/
def addCondition (s : Scope) (c : NamedCondition) : Scope :=
  { s with level.conditions := s.level.conditions ++ [c] }

theorem families_addCondition (s : Scope) (c : NamedCondition) :
    (s.addCondition c).families.Perm (Family.ofCondition c ++ s.families) := by
  simp only [families, addCondition, levels, Level.families, List.flatMap_cons,
    List.flatMap_append, List.flatMap_nil, List.append_nil]
  rw [← List.append_assoc, ← List.append_assoc (Family.ofCondition c)]
  exact List.perm_append_comm.append_right _

theorem history_addCondition (s : Scope) (c : NamedCondition) :
    (s.addCondition c).history = c :: s.history := by
  simp [history, addCondition, levels]

/-- The composite nodes of a condition are named after its base name. -/
theorem id_of_mem_ofCondition {c : NamedCondition} {targets : Condition Target} {base : String}
    (hc : c.compiled = Compiled.ofTargets? targets base) {f : Family}
    (hf : f ∈ Family.ofCondition c) : f = ⟨base, c.declarations⟩ ∧ c.declarations.isEmpty = false := by
  cases hk : Compiled.ofTargets? targets base with
  | none => simp [Family.ofCondition, NamedCondition.toggle?, hc, hk] at hf
  | some k =>
    obtain ⟨-, -, g, -, ht, hd⟩ := Compiled.ofTargets?_eq_some.1 hk
    have hdecl : c.declarations = g.network base := by
      simp [NamedCondition.declarations, hc, hk, hd]
    simp only [Family.ofCondition, NamedCondition.toggle?, hc, hk, Option.map_some, ht, hdecl] at hf ⊢
    cases g with
    | leaf a => simp [Formula.network] at hf
    | not g | and l r | or l r => simpa [Formula.network, Formula.toggle] using hf

theorem nodup_ofCondition (c : NamedCondition) : ((Family.ofCondition c).map (·.id)).Nodup := by
  unfold Family.ofCondition
  split
  · exact List.nodup_nil
  · split <;> simp

theorem sound_addCondition {s : Scope} {c : NamedCondition} {base : String} (hs : s.Sound)
    (hn : c.name ∉ s.level.names) (hw : ShortId.IsWord base)
    (hl : ∀ leaf ∈ c.definition.leaves, (Target.of? s.hookId? s.lookup? leaf).isSome)
    (hc : c.compiled =
      Compiled.ofTargets? (c.definition.bind (Target.leafOf s.hookId? s.lookup?)) base)
    (hid : c.declarations.isEmpty = false → base ∉ s.families.map (·.id)) :
    (s.addCondition c).Sound where
  parsed := hs.parsed
  texts := hs.texts
  names := fun level hlevel => by
    rcases List.mem_cons.1 hlevel with rfl | hlevel
    · simp only [addCondition, Level.names, List.map_append, List.map_cons, List.map_nil]
      rw [List.nodup_append]
      refine ⟨hs.names s.level (by simp [levels]), by simp, fun p hp q hq he => hn ?_⟩
      rw [List.mem_singleton] at hq
      exact hq ▸ he ▸ hp
    · exact hs.names level (List.mem_cons_of_mem _ hlevel)
  words := fun f hf => by
    rcases List.mem_append.1 ((families_addCondition s c).mem_iff.1 hf) with hf | hf
    · rw [(id_of_mem_ofCondition hc hf).1]
      exact hw
    · exact hs.words f hf
  ids := by
    rw [((families_addCondition s c).map _).nodup_iff, List.map_append, List.nodup_append]
    refine ⟨nodup_ofCondition c, hs.ids, fun p hp q hq he => ?_⟩
    obtain ⟨f, hf, rfl⟩ := List.mem_map.1 hp
    obtain ⟨hf, hd⟩ := id_of_mem_ofCondition hc hf
    rw [hf] at he
    exact hid hd (by rw [show base = q from he]; exact hq)
  made := by
    rw [history_addCondition]
    rw [hs.lookup?_eq] at hl hc
    exact .cons hs.made hl hw hc

/-! ## Steps -/

/-- What reading the leaves of a definition does: it may add hooks. -/
structure Grown (s s' : Scope) : Prop where
  ids : ∀ text id, s.hookId? text = some id → s'.hookId? text = some id
  hooks : ∃ new, s' = { s with level.hooks := s.level.hooks ++ new }
  sound : s.Sound → s'.Sound

namespace Grown

theorem refl (s : Scope) : Grown s s := ⟨fun _ _ h => h, ⟨[], by simp⟩, id⟩

theorem trans {s s₁ s₂ : Scope} (h : Grown s s₁) (h' : Grown s₁ s₂) : Grown s s₂ where
  ids := fun text id ht => h'.ids text id (h.ids text id ht)
  hooks := by
    obtain ⟨new, rfl⟩ := h.hooks
    obtain ⟨new', rfl⟩ := h'.hooks
    exact ⟨new ++ new', by simp⟩
  sound := h'.sound ∘ h.sound

variable {s s' : Scope}

theorem conditions (h : Grown s s') : s'.level.conditions = s.level.conditions := by
  obtain ⟨new, rfl⟩ := h.hooks
  rfl

theorem lookup? (h : Grown s s') : s'.lookup? = s.lookup? := by
  obtain ⟨new, rfl⟩ := h.hooks
  rfl

end Grown

theorem grown_addHook {s : Scope} {h : HookEntry} (hp : Hook.parse h.hook.text = .ok h.hook)
    (hn : s.hookId? h.hook.text = none) (hw : ShortId.IsWord h.id)
    (hid : h.id ∉ s.families.map (·.id)) : Grown s (s.addHook h) where
  ids := fun _ _ => hookId?_addHook hn
  hooks := ⟨[h], rfl⟩
  sound := fun hs => sound_addHook hs hp hn hw hid

theorem hookId?_addHook_self {s : Scope} {h : HookEntry} (hn : s.hookId? h.hook.text = none) :
    (s.addHook h).hookId? h.hook.text = some h.id := by
  rw [hookId?, levels, List.findSome?_cons] at hn ⊢
  cases hl : s.level.hookId? h.hook.text with
  | some id => simp [hl] at hn
  | none =>
    rw [Level.hookId?, Option.map_eq_none_iff] at hl
    simp [addHook, Level.hookId?, List.find?_append, hl]

theorem internHook_eq_ok {text : String} {s s' : Scope} {id : String}
    (h : internHook text s = .ok (id, s')) :
    (s.hookId? text = some id ∧ s' = s) ∨
      s.hookId? text = none ∧ ∃ hook, Hook.parse text = .ok hook ∧ id = s.idOf text ∧
        id ∉ s.families.map (·.id) ∧ s' = s.addHook ⟨hook, id⟩ := by
  unfold internHook at h
  split at h
  · rename_i id' hid
    simp only [Except.ok.injEq, Prod.mk.injEq] at h
    obtain ⟨rfl, rfl⟩ := h
    exact .inl ⟨hid, rfl⟩
  · rename_i hn
    split at h
    · cases h
    · rename_i hook hp
      cases hc : s.claim (s.idOf text) (.hook text) with
      | error e => simp [hc, bind, Except.bind] at h
      | ok u =>
        simp only [hc, bind, Except.bind, pure, Except.pure, Except.ok.injEq, Prod.mk.injEq] at h
        obtain ⟨rfl, rfl⟩ := h
        exact .inr ⟨hn, hook, hp, rfl, claim_eq_ok.1 hc, rfl⟩

theorem grown_internHook {text : String} {s s' : Scope} {id : String}
    (h : internHook text s = .ok (id, s')) : Grown s s' ∧ s'.hookId? text = some id := by
  rcases internHook_eq_ok h with ⟨hid, rfl⟩ | ⟨hn, hook, hp, rfl, hid, rfl⟩
  · exact ⟨.refl _, hid⟩
  · obtain rfl := Hook.text_of_parse hp
    exact ⟨grown_addHook hp hn (ShortId.isWord_ofText _) hid, hookId?_addHook_self hn⟩

/-- A leaf that was read stands for the same in every scope grown from there. -/
theorem grown_resolveLeaf {leaf : String} {s s' : Scope} {d : Condition Target}
    (h : resolveLeaf leaf s = .ok (d, s')) :
    Grown s s' ∧ ∀ s₂, Grown s' s₂ →
      d = Target.leafOf s₂.hookId? s₂.lookup? leaf ∧
        (Target.of? s₂.hookId? s₂.lookup? leaf).isSome := by
  unfold resolveLeaf at h
  split at h
  · rename_i hh
    cases hi : internHook leaf s with
    | error e => simp [hi, bind, Except.bind] at h
    | ok p =>
      obtain ⟨id, s₁⟩ := p
      simp only [hi, bind, Except.bind, pure, Except.pure, Except.ok.injEq, Prod.mk.injEq] at h
      obtain ⟨rfl, rfl⟩ := h
      obtain ⟨hg, hid⟩ := grown_internHook hi
      refine ⟨hg, fun s₂ h₂ => ?_⟩
      have ho : Target.of? s₂.hookId? s₂.lookup? leaf = some (.hook id) := by
        simp [Target.of?, hh, h₂.ids leaf id hid]
      rw [Target.leafOf_eq ho, ho]
      exact ⟨rfl, rfl⟩
  · rename_i hh
    cases hl : s.lookup? leaf with
    | none => simp [hl] at h
    | some c =>
      simp only [hl, pure, Except.pure, Except.ok.injEq, Prod.mk.injEq] at h
      obtain ⟨rfl, rfl⟩ := h
      refine ⟨.refl _, fun s₂ h₂ => ?_⟩
      have ho : Target.of? s₂.hookId? s₂.lookup? leaf = some (.reference c.compiled) := by
        simp [Target.of?, hh, h₂.lookup?, hl]
      rw [Target.leafOf_eq ho, ho]
      exact ⟨rfl, rfl⟩

theorem grown_resolve {definition : Condition String} {s s' : Scope} {targets : Condition Target}
    (h : resolve definition s = .ok (targets, s')) :
    Grown s s' ∧ targets = definition.bind (Target.leafOf s'.hookId? s'.lookup?) ∧
      ∀ leaf ∈ definition.leaves, (Target.of? s'.hookId? s'.lookup? leaf).isSome := by
  obtain ⟨hg, ht⟩ := Condition.bindM_eq_bind
    (Q := fun s leaf => (Target.of? s.hookId? s.lookup? leaf).isSome)
    Grown.refl Grown.trans grown_resolveLeaf h
  exact ⟨hg, ht s' (.refl s')⟩

theorem claimBase_eq_ok {s : Scope} {base : String} {c : NamedCondition}
    (h : s.claimBase base c.name c.compiled = .ok ()) (hd : c.declarations.isEmpty = false) :
    base ∉ s.families.map (·.id) := by
  rw [NamedCondition.declarations] at hd
  cases hk : c.compiled with
  | none => simp [hk] at hd
  | some k =>
    simp only [hk] at hd
    simp only [hk, claimBase, hd] at h
    exact claim_eq_ok.1 h

/-- A definition that nothing objects to goes through all steps. -/
theorem steps_of_define {s s' : Scope} {name : String} {definition : Condition String}
    (h : s.define name definition = .ok s') :
    Definitions.checkName name = .ok () ∧ name ∉ s.level.names ∧
      ∃ targets s₁, resolve definition s = .ok (targets, s₁) ∧
        s₁.claimBase (s₁.idOf name) name (Compiled.ofTargets? targets (s₁.idOf name)) = .ok () ∧
        s' = s₁.addCondition ⟨name, definition, Compiled.ofTargets? targets (s₁.idOf name)⟩ := by
  unfold define at h
  cases hn : Definitions.checkName name with
  | error e => simp [hn, bind, Except.bind] at h
  | ok u =>
    simp only [hn, bind, Except.bind] at h
    split at h
    · cases h
    · rename_i hname
      cases hr : resolve definition s with
      | error e => simp [hr] at h
      | ok p =>
        obtain ⟨targets, s₁⟩ := p
        simp only [hr] at h
        split at h
        · cases h
        · rename_i hc
          simp only [pure, Except.pure, Except.ok.injEq] at h
          exact ⟨rfl, hname, targets, s₁, rfl, hc, h.symm⟩

/-- What adding a definition does, if nothing objects: hooks come first, and
then the condition. -/
theorem define_eq_ok {s s' : Scope} {name : String} {definition : Condition String}
    (h : s.define name definition = .ok s') :
    Definitions.checkName name = .ok () ∧ name ∉ s.level.names ∧
      ∃ s₁ c, Grown s s₁ ∧ s' = s₁.addCondition c ∧ c.name = name ∧ c.definition = definition ∧
        (∀ leaf ∈ definition.leaves, (Target.of? s₁.hookId? s₁.lookup? leaf).isSome) ∧
        c.compiled = Compiled.ofTargets?
          (definition.bind (Target.leafOf s₁.hookId? s₁.lookup?)) (s₁.idOf name) ∧
        (c.declarations.isEmpty = false → s₁.idOf name ∉ s₁.families.map (·.id)) := by
  obtain ⟨hn, hname, targets, s₁, hr, hc, rfl⟩ := steps_of_define h
  obtain ⟨hg, rfl, hl⟩ := grown_resolve hr
  exact ⟨hn, hname, s₁, _, hg, rfl, rfl, rfl, hl, rfl, claimBase_eq_ok hc⟩

/-- **A definition keeps the invariant.** -/
theorem sound_define {s s' : Scope} {name : String} {definition : Condition String} (hs : s.Sound)
    (h : s.define name definition = .ok s') : s'.Sound := by
  obtain ⟨-, hname, s₁, c, hg, rfl, rfl, rfl, hl, hc, hid⟩ := define_eq_ok h
  have hfree : c.name ∉ s₁.level.names := by
    rwa [Level.names, hg.conditions]
  exact sound_addCondition (hg.sound hs) hfree (ShortId.isWord_ofText _) hl hc hid

theorem sound_defineAll {s s' : Scope} {definitions : Definitions} (hs : s.Sound)
    (h : s.defineAll definitions = .ok s') : s'.Sound := by
  induction definitions generalizing s with
  | nil =>
    simp only [defineAll, List.foldlM_nil, pure, Except.pure, Except.ok.injEq] at h
    exact h ▸ hs
  | cons d definitions ih =>
    simp only [defineAll, List.foldlM_cons, bind, Except.bind] at h
    split at h
    · cases h
    · rename_i s₁ hd
      exact ih (sound_define hs hd) h

theorem sound_outermost (hash : String) : Sound ⟨hash, .empty, []⟩ where
  parsed := by simp [hooks, levels, Level.empty]
  texts := by simp [hooks, levels, Level.empty]
  names := by simp [levels, Level.empty, Level.names]
  words := by simp [families, levels, Level.empty, Level.families]
  ids := by simp [families, levels, Level.empty, Level.families]
  made := .nil

theorem sound_inner {s : Scope} (hs : s.Sound) : Sound ⟨s.hash, .empty, s.levels⟩ where
  parsed := hs.parsed
  texts := hs.texts
  names := fun level hl => by
    rcases List.mem_cons.1 hl with rfl | hl
    · exact List.nodup_nil
    · exact hs.names level hl
  words := hs.words
  ids := hs.ids
  made := hs.made

/-- **Every scope that can be built is sound.** -/
theorem Reachable.sound {s : Scope} (h : Reachable s) : s.Sound := by
  induction h with
  | root h => exact sound_defineAll (sound_outermost _) h
  | nest _ h ih => exact sound_defineAll (sound_inner ih) h

end Scope

end VarLogic
