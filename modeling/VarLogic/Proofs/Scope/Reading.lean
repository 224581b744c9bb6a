/-
Reading the leaves of a definition. An id has one owner (`owner?_eq_some`), and
leaves that nothing is wrong with leave the new hooks among them behind
(`Read`). So what is wrong with a leaf can be told from the scope before the
definition and the leaves read since (`Read.leafFault_iff`), and reading fails
at the first leaf with something wrong (`readLeaves_eq_error`).
-/
import VarLogic.Scope.Faults
import VarLogic.Proofs.Condition.Effects
import VarLogic.Proofs.Scope.Build
import VarLogic.Proofs.Scope.Sheet
import Mathlib.Data.List.Induction

namespace VarLogic

open Condition (effect effect_bindM effect_eq_ok effect_eq_error)

namespace Scope

variable {s s₁ : Scope} {id leaf text : String} {read : List String} {owner : Owner} {e : Error}

/-! ## Owners -/

/-- All ids of a scope, and what they were made for. -/
def owners (s : Scope) : List (String × Owner) :=
  s.hooks.map (fun h => (h.id, .hook h.hook.text)) ++
    s.history.flatMap fun c => (Family.ofCondition c).map fun f => (f.id, .condition c.name)

theorem Sound.nodup_owners (hs : s.Sound) : (s.owners.map (·.1)).Nodup := by
  have hids := (s.perm_families.map (·.id)).nodup_iff.1 hs.ids
  simpa [owners, List.map_flatMap, Function.comp_def, Family.ofHook] using hids

theorem mem_ids_ofCondition {c : NamedCondition} :
    id ∈ (Family.ofCondition c).map (·.id) ↔ c.declarations ≠ [] ∧ c.toggle? = some id := by
  unfold Family.ofCondition
  cases ht : c.toggle? with
  | none => simp
  | some t => cases hd : c.declarations <;> simp [eq_comm]

theorem mem_hooks {h : HookEntry} : h ∈ s.hooks ↔ ∃ level ∈ s.levels, h ∈ level.hooks :=
  List.mem_flatMap

theorem mem_history {c : NamedCondition} :
    c ∈ s.history ↔ ∃ level ∈ s.levels, c ∈ level.conditions := by
  simp [history]

/-- An id is held by a hook or by a composite condition. -/
theorem holds_iff :
    s.Holds id owner ↔ (∃ h ∈ s.hooks, h.id = id ∧ .hook h.hook.text = owner) ∨
      ∃ c ∈ s.history, c.declarations ≠ [] ∧ c.toggle? = some id ∧ .condition c.name = owner := by
  constructor
  · rintro (⟨hlevel, hh, hid⟩ | ⟨hlevel, hc, hd, ht⟩)
    · exact .inl ⟨_, mem_hooks.2 ⟨_, hlevel, hh⟩, hid, rfl⟩
    · exact .inr ⟨_, mem_history.2 ⟨_, hlevel, hc⟩, hd, ht, rfl⟩
  · rintro (⟨h, hh, hid, rfl⟩ | ⟨c, hc, hd, ht, rfl⟩)
    · obtain ⟨level, hlevel, hh⟩ := mem_hooks.1 hh
      exact .hook hlevel hh hid
    · obtain ⟨level, hlevel, hc⟩ := mem_history.1 hc
      exact .condition hlevel hc hd ht

theorem mem_owners : (id, owner) ∈ s.owners ↔ s.Holds id owner := by
  rw [holds_iff, owners, List.mem_append]
  refine or_congr (by simp) ?_
  simp only [List.mem_flatMap, List.mem_map, Prod.mk.injEq]
  refine exists_congr fun c => and_congr_right fun _ => ?_
  rw [← and_assoc, ← mem_ids_ofCondition, List.mem_map]
  grind

theorem holds_of_owner? (h : s.owner? id = some owner) : s.Holds id owner := by
  obtain ⟨level, hlevel, h⟩ := List.exists_of_findSome?_eq_some h
  unfold Level.owner? at h
  split at h
  · rename_i entry hf
    obtain rfl := Option.some.inj h
    exact .hook hlevel (List.mem_of_find?_eq_some hf) (by simpa using List.find?_some hf)
  · obtain ⟨c, hf, rfl⟩ := Option.map_eq_some_iff.1 h
    have hc := List.find?_some hf
    simp only [Bool.and_eq_true, Bool.not_eq_eq_eq_not, Bool.not_true, decide_eq_true_eq] at hc
    exact .condition hlevel (List.mem_of_find?_eq_some hf) (by simpa using hc.1) hc.2

theorem mem_ids_of_holds (h : s.Holds id owner) : id ∈ s.families.map (·.id) := by
  rw [(s.perm_families.map (·.id)).mem_iff]
  have hm := List.mem_map_of_mem (f := (·.1)) (mem_owners.2 h)
  simpa [owners, List.map_flatMap, Function.comp_def, Family.ofHook] using hm

/-- **An id has one owner**, and that is the one found. -/
theorem owner?_eq_some (hs : s.Sound) : s.owner? id = some owner ↔ s.Holds id owner := by
  refine ⟨holds_of_owner?, fun h => ?_⟩
  cases hf : s.owner? id with
  | none => exact absurd (mem_ids_of_holds h) (owner?_eq_none.1 hf)
  | some other =>
    have hother := mem_owners.2 (holds_of_owner? hf)
    rw [(Prod.mk.inj (List.inj_on_of_nodup_map hs.nodup_owners hother (mem_owners.2 h) rfl)).2]

theorem claim_eq_error (hs : s.Sound) {second : Owner} :
    s.claim id second = .error e ↔ ∃ first, s.Holds id first ∧ e = .idCollision id first second := by
  simp only [← owner?_eq_some hs, claim]
  cases s.owner? id <;> simp [eq_comm]

/-! ## Leaves -/

theorem isNewHook_iff :
    s.IsNewHook text ↔ Hook.isHookSyntax text = true ∧ ∀ h ∈ s.hooks, h.hook.text ≠ text := by
  simp only [IsNewHook, mem_hooks]
  grind

theorem isNewHook_iff_hookId? :
    s.IsNewHook text ↔ Hook.isHookSyntax text = true ∧ s.hookId? text = none := by
  rw [isNewHook_iff, hookId?_eq, Option.map_eq_none_iff, List.find?_eq_none]
  simp

theorem lookup?_eq_none :
    s.lookup? text = none ↔ ∀ level ∈ s.levels, text ∉ level.names := by
  simp [lookup?, List.findSome?_eq_none_iff, Level.condition?, Level.names]

theorem holdsAfter_nil : s.HoldsAfter [] id owner ↔ s.Holds id owner := by
  refine ⟨fun h => ?_, .before⟩
  cases h with
  | before h => exact h
  | leaf hm => cases hm

/-- What is wrong with a leaf is the error of reading it. -/
theorem resolveLeaf_eq_error (hs : s.Sound) :
    resolveLeaf leaf s = .error e ↔ s.LeafFault [] leaf e := by
  constructor
  · intro h
    unfold resolveLeaf internHook at h
    split at h
    · rename_i hh
      split at h
      · cases h
      · rename_i hn
        have hnew : s.IsNewHook leaf := isNewHook_iff_hookId?.2 ⟨hh, hn⟩
        split at h
        · rename_i hp
          cases h
          exact .invalidHook hnew List.not_mem_nil hp
        · rename_i hook hp
          cases hc : s.claim (s.idOf leaf) (.hook leaf) with
          | error e' =>
            simp only [hc, bind, Except.bind, Except.error.injEq] at h
            obtain ⟨first, hfirst, rfl⟩ := (claim_eq_error hs).1 hc
            exact h ▸ .idCollision hnew List.not_mem_nil hp (.before hfirst)
          | ok u => simp [hc, bind, Except.bind, pure, Except.pure] at h
    · rename_i hh
      split at h
      · rename_i hl
        cases h
        exact .unknownCondition (by simpa using hh) (lookup?_eq_none.1 hl)
      · cases h
  · intro h
    cases h with
    | invalidHook hnew _ hp =>
      obtain ⟨hh, hn⟩ := isNewHook_iff_hookId?.1 hnew
      simp [resolveLeaf, internHook, hh, hn, hp, bind, Except.bind]
    | @idCollision hook first hnew _ hp hheld =>
      obtain ⟨hh, hn⟩ := isNewHook_iff_hookId?.1 hnew
      have hheld : s.Holds (s.idOf leaf) first := holdsAfter_nil.1 hheld
      have hc : s.claim (s.idOf leaf) (.hook leaf) = .error _ := (claim_eq_error hs).2 ⟨_, hheld, rfl⟩
      simp [resolveLeaf, internHook, hh, hn, hp, hc, bind, Except.bind]
    | unknownCondition hh hunknown => simp [resolveLeaf, hh, lookup?_eq_none.2 hunknown]

/-- What reading a leaf does to the scope: a new hook is brought in, and nothing
else happens. -/
theorem effect_resolveLeaf (h : effect (resolveLeaf leaf) s = .ok s₁) :
    (¬ s.IsNewHook leaf ∧ s₁ = s) ∨
      s.IsNewHook leaf ∧ ∃ hook : Hook, hook.text = leaf ∧ s₁ = s.addHook ⟨hook, s.idOf leaf⟩ := by
  obtain ⟨t, hr⟩ := effect_eq_ok.1 h
  unfold resolveLeaf at hr
  split at hr
  · rename_i hh
    cases hi : internHook leaf s with
    | error e => simp [hi, bind, Except.bind] at hr
    | ok p =>
      obtain ⟨id, s₂⟩ := p
      simp only [hi, bind, Except.bind, pure, Except.pure, Except.ok.injEq, Prod.mk.injEq] at hr
      obtain ⟨-, rfl⟩ := hr
      rcases internHook_eq_ok hi with ⟨hid, rfl⟩ | ⟨hn, hook, hp, rfl, -, rfl⟩
      · exact .inl ⟨fun hnew => by simp [(isNewHook_iff_hookId?.1 hnew).2] at hid, rfl⟩
      · exact .inr ⟨isNewHook_iff_hookId?.2 ⟨hh, hn⟩, hook, Hook.text_of_parse hp, rfl⟩
  · rename_i hh
    cases hl : s.lookup? leaf with
    | none => simp [hl] at hr
    | some c =>
      simp only [hl, pure, Except.pure, Except.ok.injEq, Prod.mk.injEq] at hr
      exact .inl ⟨fun hnew => hh hnew.1, hr.2.symm⟩

/-- What reading leaves does, if nothing is wrong with them: the new hooks
among them are brought in. -/
def Read (s : Scope) (read : List String) (s₁ : Scope) : Prop :=
  ∃ new : List HookEntry, s₁ = { s with level.hooks := s.level.hooks ++ new } ∧
    ∀ text id, (∃ h ∈ new, h.hook.text = text ∧ h.id = id) ↔
      text ∈ read ∧ s.IsNewHook text ∧ s.idOf text = id

namespace Read

theorem nil (s : Scope) : Read s [] s := ⟨[], by simp, by simp⟩

theorem idOf (h : Read s read s₁) : s₁.idOf = s.idOf := by
  obtain ⟨new, rfl, -⟩ := h
  rfl

theorem lookup? (h : Read s read s₁) : s₁.lookup? = s.lookup? := by
  obtain ⟨new, rfl, -⟩ := h
  rfl

theorem history (h : Read s read s₁) : s₁.history = s.history := by
  obtain ⟨new, rfl, -⟩ := h
  rfl

/-- The hooks are those there before, and the new ones among the leaves. -/
theorem exists_hook_iff (h : Read s read s₁) {p : String → String → Prop} :
    (∃ h ∈ s₁.hooks, p h.hook.text h.id) ↔ (∃ h ∈ s.hooks, p h.hook.text h.id) ∨
      ∃ text ∈ read, s.IsNewHook text ∧ p text (s.idOf text) := by
  obtain ⟨new, rfl, hnew⟩ := h
  have hmem : ∀ h, h ∈ hooks { s with level.hooks := s.level.hooks ++ new } ↔
      h ∈ s.hooks ∨ h ∈ new := fun h => by
    simp only [hooks, levels, List.flatMap_cons, List.mem_append, or_assoc,
      or_comm (a := h ∈ new)]
  simp only [hmem, or_and_right, exists_or]
  refine or_congr_right ⟨?_, ?_⟩
  · rintro ⟨h, hh, hp⟩
    obtain ⟨hm, hn, hid⟩ := (hnew _ _).1 ⟨h, hh, rfl, rfl⟩
    exact ⟨_, hm, hn, hid ▸ hp⟩
  · rintro ⟨text, hm, hn, hp⟩
    obtain ⟨h, hh, rfl, hid⟩ := (hnew _ _).2 ⟨hm, hn, rfl⟩
    exact ⟨h, hh, hid ▸ hp⟩

theorem isNewHook_iff (h : Read s read s₁) :
    s₁.IsNewHook text ↔ s.IsNewHook text ∧ text ∉ read := by
  have hex := h.exists_hook_iff (p := fun t _ => t = text)
  simp only [Scope.isNewHook_iff] at hex ⊢
  grind

theorem holds_iff (h : Read s read s₁) : s₁.Holds id owner ↔ s.HoldsAfter read id owner := by
  rw [Scope.holds_iff, h.exists_hook_iff (p := fun t i => i = id ∧ .hook t = owner), h.history]
  constructor
  · rintro ((hhook | ⟨text, hm, hn, hid, rfl⟩) | hcondition)
    · exact .before (Scope.holds_iff.2 (.inl hhook))
    · exact .leaf hm hn hid
    · exact .before (Scope.holds_iff.2 (.inr hcondition))
  · rintro (hbefore | ⟨hm, hn, hid⟩)
    · exact (Scope.holds_iff.1 hbefore).imp_left .inl
    · exact .inl (.inr ⟨_, hm, hn, hid, rfl⟩)

/-- **What is wrong with a leaf can be told from the scope before**, given the
leaves read since. -/
theorem leafFault_iff (h : Read s read s₁) :
    s₁.LeafFault [] leaf e ↔ s.LeafFault read leaf e := by
  constructor
  · intro hf
    cases hf with
    | invalidHook hnew _ hp =>
      obtain ⟨hnew, hm⟩ := h.isNewHook_iff.1 hnew
      exact .invalidHook hnew hm hp
    | idCollision hnew _ hp hheld =>
      obtain ⟨hnew, hm⟩ := h.isNewHook_iff.1 hnew
      rw [h.idOf] at hheld ⊢
      exact .idCollision hnew hm hp (h.holds_iff.1 (holdsAfter_nil.1 hheld))
    | unknownCondition hh hunknown =>
      exact .unknownCondition hh (lookup?_eq_none.1 (h.lookup? ▸ lookup?_eq_none.2 hunknown))
  · intro hf
    cases hf with
    | invalidHook hnew hm hp =>
      exact .invalidHook (h.isNewHook_iff.2 ⟨hnew, hm⟩) List.not_mem_nil hp
    | idCollision hnew hm hp hheld =>
      rw [← h.idOf] at hheld ⊢
      exact .idCollision (h.isNewHook_iff.2 ⟨hnew, hm⟩) List.not_mem_nil hp
        (.before (h.holds_iff.2 hheld))
    | unknownCondition hh hunknown =>
      exact .unknownCondition hh (lookup?_eq_none.1 (h.lookup?.symm ▸ lookup?_eq_none.2 hunknown))

/-- A leaf that is no new hook brings nothing in. -/
theorem known (h : Read s read s₁) (hk : ¬ s₁.IsNewHook leaf) : Read s (read ++ [leaf]) s₁ := by
  have hread : s.IsNewHook leaf → leaf ∈ read := fun hn =>
    not_not.1 fun hm => hk (h.isNewHook_iff.2 ⟨hn, hm⟩)
  obtain ⟨new, rfl, hnew⟩ := h
  refine ⟨new, rfl, fun text id => (hnew text id).trans ?_⟩
  grind

/-- A new hook is brought in with the id of its text. -/
theorem addHook (h : Read s read s₁) {hook : Hook} (hn : s₁.IsNewHook hook.text) :
    Read s (read ++ [hook.text]) (s₁.addHook ⟨hook, s₁.idOf hook.text⟩) := by
  have hnewHook := (h.isNewHook_iff.1 hn).1
  rw [h.idOf]
  obtain ⟨new, rfl, hnew⟩ := h
  refine ⟨new ++ [⟨hook, s.idOf hook.text⟩], by simp [Scope.addHook], fun text id => ?_⟩
  simp only [List.mem_append, or_and_right, exists_or, hnew, List.mem_singleton, exists_eq_left]
  refine or_congr_right ⟨?_, ?_⟩
  · rintro ⟨rfl, rfl⟩
    exact ⟨rfl, hnewHook, rfl⟩
  · rintro ⟨rfl, -, rfl⟩
    exact ⟨rfl, rfl⟩

/-- One leaf more. -/
theorem step {s₂ : Scope} (h : Read s read s₁) (hr : effect (resolveLeaf leaf) s₁ = .ok s₂) :
    Read s (read ++ [leaf]) s₂ := by
  rcases effect_resolveLeaf hr with ⟨hk, rfl⟩ | ⟨hn, hook, rfl, rfl⟩
  · exact h.known hk
  · exact h.addHook hn

end Read

/-! ## All leaves of a definition -/

/-- Reads leaves from left to right, for what that does to the scope. -/
def readLeaves (leaves : List String) (s : Scope) : Except Error Scope :=
  leaves.foldlM (fun s leaf => effect (resolveLeaf leaf) s) s

theorem effect_resolve (definition : Condition String) (s : Scope) :
    effect (resolve definition) s = readLeaves definition.leaves s :=
  effect_bindM definition s

theorem readLeaves_eq_ok {leaves : List String} (h : readLeaves leaves s = .ok s₁) :
    Read s leaves s₁ ∧ (s.Sound → s₁.Sound) := by
  induction leaves using List.reverseRecOn generalizing s₁ with
  | nil =>
    obtain rfl := Except.ok.inj h
    exact ⟨.nil s, id⟩
  | append_singleton leaves leaf ih =>
    rw [readLeaves, List.foldlM_append] at h
    cases hl : readLeaves leaves s with
    | error e =>
      rw [readLeaves] at hl
      simp [hl, bind, Except.bind] at h
    | ok s₂ =>
      obtain ⟨hread, hsound⟩ := ih hl
      rw [readLeaves] at hl
      simp only [hl, bind, Except.bind] at h
      obtain ⟨s₃, hr, h⟩ := foldlM_cons_eq_ok.1 h
      obtain rfl := Except.ok.inj h
      obtain ⟨t, ht⟩ := effect_eq_ok.1 hr
      exact ⟨hread.step hr, (grown_resolveLeaf ht).1.sound ∘ hsound⟩

/-- What reading a definition does to the scope. -/
theorem read_resolve {definition : Condition String} {targets : Condition Target}
    (h : resolve definition s = .ok (targets, s₁)) : Read s definition.leaves s₁ :=
  (readLeaves_eq_ok (effect_resolve definition s ▸ effect_eq_ok.2 ⟨targets, h⟩)).1

/-- Reading leaves fails at the first one with something wrong. -/
theorem readLeaves_eq_error (hs : s.Sound) {leaves : List String} :
    readLeaves leaves s = .error e ↔
      ∃ read leaf rest s₁, leaves = read ++ leaf :: rest ∧ readLeaves read s = .ok s₁ ∧
        s.LeafFault read leaf e := by
  rw [readLeaves, foldlM_eq_error]
  refine exists₃_congr fun read leaf rest => exists_congr fun s₁ => and_congr_right fun _ =>
    and_congr_right fun hok => ?_
  obtain ⟨hread, hsound⟩ := readLeaves_eq_ok hok
  rw [effect_eq_error, resolveLeaf_eq_error (hsound hs), hread.leafFault_iff]

/-- Leaves can be read if nothing is wrong with any of them. -/
theorem leavesPass_iff (hs : s.Sound) {leaves : List String} :
    s.LeavesPass leaves ↔ ∃ s₁, readLeaves leaves s = .ok s₁ := by
  constructor
  · intro h
    cases hl : readLeaves leaves s with
    | ok s₁ => exact ⟨s₁, rfl⟩
    | error e =>
      obtain ⟨read, leaf, rest, s₁, he, -, hfault⟩ := (readLeaves_eq_error hs).1 hl
      exact absurd hfault (h read leaf rest he e)
  · rintro ⟨s₁, hl⟩ read leaf rest rfl e hfault
    cases hr : readLeaves read s with
    | error e' =>
      rw [readLeaves] at hr
      rw [readLeaves, List.foldlM_append, hr] at hl
      cases hl
    | ok s₂ =>
      have herror := (readLeaves_eq_error hs).2 ⟨read, leaf, rest, s₂, rfl, hr, hfault⟩
      cases hl.symm.trans herror

end Scope

end VarLogic
