/-
Building a scope fails at the first thing that is wrong, and only then. A
definition has the error that the order of its checks gives
(`define_eq_error`): its name, its leaves from left to right, and then the id
of its own node. Definitions have the error of the first one that has any
(`create_eq_first_fault`). Reading the leaves for the tree over hooks and once
more for the tree over toggles comes to the same as reading them once
(`define_eq_defineTwice`), since everything is known by the second time
(`resolveTo_toggle`).
-/
import VarLogic.Proofs.Scope.Conditions
import VarLogic.Proofs.Scope.Reading

namespace VarLogic

namespace Scope

variable {s s₁ : Scope} {name : String} {definition : Condition String} {e : Error}

/-! ## Reading twice -/

theorem resolveTo_eq (view : Target → Condition String) (definition : Condition String) :
    resolveTo view definition = (do return (← resolve definition).bind view) :=
  Condition.bindM_map view definition

theorem resolveTo_eq_ok {view : Target → Condition String} {tree : Condition String} :
    resolveTo view definition s = .ok (tree, s₁) ↔
      ∃ targets, resolve definition s = .ok (targets, s₁) ∧ tree = targets.bind view := by
  rw [resolveTo_eq]
  simp only [Condition.bindStateT_eq_ok, Condition.pureStateT_eq_ok]
  grind

/-- What leaves stand for stays as it is when they are read again. -/
theorem resolve_again {targets : Condition Target} (h : resolve definition s = .ok (targets, s₁)) :
    resolve definition s₁ = .ok (targets, s₁) := by
  obtain ⟨-, rfl, hl⟩ := grown_resolve h
  refine Condition.bindM_of_fixed fun leaf hleaf => ?_
  obtain ⟨t, ht⟩ := Option.isSome_iff_exists.1 (hl leaf hleaf)
  rw [Target.leafOf_eq ht]
  unfold Target.of? at ht
  unfold resolveLeaf
  split at ht
  · rename_i hh
    obtain ⟨id, hid, rfl⟩ := Option.map_eq_some_iff.1 ht
    simp [hh, internHook, hid, bind, Except.bind, pure, Except.pure]
  · rename_i hh
    obtain ⟨c, hc, rfl⟩ := Option.map_eq_some_iff.1 ht
    simp [hh, hc, pure, Except.pure]

/-- The id of a hook among the leaves read: the one it had, or that of its
text. -/
theorem Read.hookId?_eq {leaves : List String} (h : Read s leaves s₁) (hg : Grown s s₁)
    {leaf : String} (hleaf : leaf ∈ leaves) (hh : Hook.isHookSyntax leaf = true) :
    s₁.hookId? leaf = some ((s.hookId? leaf).getD (s.idOf leaf)) := by
  cases hid : s.hookId? leaf with
  | some id => exact hg.ids leaf id hid
  | none =>
    have hnew : s.IsNewHook leaf := isNewHook_iff_hookId?.2 ⟨hh, hid⟩
    cases hid₁ : s₁.hookId? leaf with
    | none => exact absurd hleaf (Read.isNewHook_iff h |>.1 (isNewHook_iff_hookId?.2 ⟨hh, hid₁⟩)).2
    | some id =>
      obtain ⟨entry, hentry, htext, rfl⟩ := mem_hooks_of_hookId? hid₁
      rcases (h.exists_hook_iff (p := fun t i => t = leaf ∧ i = entry.id)).1
        ⟨entry, hentry, htext, rfl⟩ with ⟨old, hold, ht, -⟩ | ⟨text, -, -, rfl, hi⟩
      · exact absurd ht ((Scope.isNewHook_iff.1 hnew).2 old hold)
      · rw [Option.getD_none, hi]

/-- The tree over toggles can be told from the scope before. -/
theorem bind_toggle_eq {targets : Condition Target}
    (h : resolve definition s = .ok (targets, s₁)) :
    targets.bind Target.toggle = s.toggleTree definition := by
  obtain ⟨hg, rfl, hl⟩ := grown_resolve h
  have hread := read_resolve h
  rw [Condition.bind_bind, toggleTree]
  refine Condition.bind_congr fun leaf hleaf => ?_
  obtain ⟨t, ht⟩ := Option.isSome_iff_exists.1 (hl leaf hleaf)
  rw [Target.leafOf_eq ht, Condition.bind]
  unfold Target.of? at ht
  split at ht
  · rename_i hh
    rw [if_pos hh]
    rw [hread.hookId?_eq hg hleaf hh, Option.map_some] at ht
    obtain rfl := Option.some.inj ht
    rfl
  · rename_i hh
    rw [if_neg hh]
    obtain ⟨c, hc, rfl⟩ := Option.map_eq_some_iff.1 ht
    rw [hg.lookup?] at hc
    rw [toggle?, hc, Option.bind_some, NamedCondition.toggle?]
    cases c.compiled <;> rfl

/-- **The second reading of the leaves never fails and brings in nothing.** -/
theorem resolveTo_toggle {tree : Condition String}
    (h : resolveTo Target.tree definition s = .ok (tree, s₁)) :
    resolveTo Target.toggle definition s₁ = .ok (s.toggleTree definition, s₁) := by
  obtain ⟨targets, hr, -⟩ := resolveTo_eq_ok.1 h
  exact resolveTo_eq_ok.2 ⟨targets, resolve_again hr, (bind_toggle_eq hr).symm⟩

/-- Reading the leaves once is as good as reading them twice. -/
theorem define_eq_defineTwice (s : Scope) (name : String) (definition : Condition String) :
    s.define name definition = s.defineTwice name definition := by
  unfold define defineTwice
  cases Definitions.checkName name with
  | error e => rfl
  | ok u =>
    by_cases hname : name ∈ s.level.names
    · simp only [hname, if_true]
    · simp only [hname, if_false]
      cases hr : resolve definition s with
      | error e =>
        have htree : resolveTo Target.tree definition s = .error e := by
          rw [resolveTo_eq]
          simp [bind, StateT.bind, Except.bind, hr]
        simp only [htree]
        rfl
      | ok p =>
        obtain ⟨targets, s₁⟩ := p
        have htree : resolveTo Target.tree definition s = .ok (targets.bind Target.tree, s₁) :=
          resolveTo_eq_ok.2 ⟨targets, hr, rfl⟩
        have htoggles :
            resolveTo Target.toggle definition s₁ = .ok (targets.bind Target.toggle, s₁) :=
          resolveTo_eq_ok.2 ⟨targets, resolve_again hr, rfl⟩
        simp only [htree, htoggles, bind, Except.bind]
        rfl

/-! ## The id of a definition's own node -/

theorem claimBase_eq_error (hs : s.Sound) {base : String} {compiled : Option Compiled} :
    s.claimBase base name compiled = .error e ↔
      (∃ k, compiled = some k ∧ k.declarations ≠ []) ∧
        ∃ first, s.Holds base first ∧ e = .idCollision base first (.condition name) := by
  rw [← claim_eq_error hs]
  cases compiled with
  | none => simp [claimBase]
  | some k => cases hd : k.declarations <;> simp [claimBase, hd]

theorem exists_ne_nil_congr {α β γ : Type} {x : Option α} {y : Option β} {f : α → List γ}
    {g : β → List γ} (h : x.map f = y.map g) :
    (∃ a, x = some a ∧ f a ≠ []) ↔ ∃ b, y = some b ∧ g b ≠ [] := by
  cases x <;> cases y <;> simp_all

/-- A definition needs an id of its own if its network has a node of its own. -/
theorem isComposite_iff {targets : Condition Target} (hs : s₁.Sound)
    (h : resolve definition s = .ok (targets, s₁)) :
    (∃ k, Compiled.ofTargets? targets (s.idOf name) = some k ∧ k.declarations ≠ []) ↔
      s.IsComposite name definition := by
  rw [IsComposite, ← bind_toggle_eq h]
  obtain ⟨-, rfl, -⟩ := grown_resolve h
  refine exists_ne_nil_congr (Compiled.map_declarations (fun t => ?_) (s.idOf name))
  exact Target.solid_of_mem_leaves (hs.lookup?_eq ▸ hs.made.solid_of_latest?)

/-! ## Definitions -/

theorem checkName_eq_error (h : Definitions.checkName name = .error e) :
    ∃ why, e = .invalidName name why := by
  unfold Definitions.checkName at h
  grind

/-- A definition fails where one of the steps of making it fails. -/
theorem define_eq_error_iff :
    s.define name definition = .error e ↔
      Definitions.checkName name = .error e ∨
      Definitions.checkName name = .ok () ∧
        (name ∈ s.level.names ∧ e = .duplicateCondition name ∨
          name ∉ s.level.names ∧
            (resolve definition s = .error e ∨
              ∃ targets s₁, resolve definition s = .ok (targets, s₁) ∧
                s₁.claimBase (s₁.idOf name) name (Compiled.ofTargets? targets (s₁.idOf name)) =
                  .error e)) := by
  unfold define
  cases hn : Definitions.checkName name with
  | error e' => simp [bind, Except.bind]
  | ok u =>
    by_cases hname : name ∈ s.level.names
    · simp [hname, bind, Except.bind, eq_comm]
    · cases hr : resolve definition s with
      | error e' => simp [hname, bind, Except.bind]
      | ok p =>
        obtain ⟨targets, s₁⟩ := p
        cases hc : s₁.claimBase (s₁.idOf name) name
            (Compiled.ofTargets? targets (s₁.idOf name)) with
        | error e' => simp [hname, hc, bind, Except.bind]
        | ok u => simp [hname, hc, bind, Except.bind, pure, Except.pure]

theorem resolve_eq_error (hs : s.Sound) :
    resolve definition s = .error e ↔
      ∃ read leaf rest, definition.leaves = read ++ leaf :: rest ∧ s.LeavesPass read ∧
        s.LeafFault read leaf e := by
  rw [← Condition.effect_eq_error, effect_resolve, readLeaves_eq_error hs]
  simp only [leavesPass_iff hs]
  grind

/-- The last check, once all leaves have been read. -/
theorem claimBase_resolved_eq_error (hs : s.Sound) :
    (∃ targets s₁, resolve definition s = .ok (targets, s₁) ∧
      s₁.claimBase (s₁.idOf name) name (Compiled.ofTargets? targets (s₁.idOf name)) = .error e) ↔
      s.LeavesPass definition.leaves ∧ s.IsComposite name definition ∧
        ∃ first, s.HoldsAfter definition.leaves (s.idOf name) first ∧
          e = .idCollision (s.idOf name) first (.condition name) := by
  have hstage : ∀ {targets s₁}, resolve definition s = .ok (targets, s₁) →
      (s₁.claimBase (s₁.idOf name) name (Compiled.ofTargets? targets (s₁.idOf name)) = .error e ↔
        s.IsComposite name definition ∧ ∃ first,
          s.HoldsAfter definition.leaves (s.idOf name) first ∧
            e = .idCollision (s.idOf name) first (.condition name)) := by
    intro targets s₁ hr
    have hread := read_resolve hr
    have hs₁ := (grown_resolve hr).1.sound hs
    rw [claimBase_eq_error hs₁, hread.idOf, isComposite_iff hs₁ hr]
    simp only [hread.holds_iff]
  rw [leavesPass_iff hs, ← effect_resolve]
  simp only [Condition.effect_eq_ok]
  constructor
  · rintro ⟨targets, s₁, hr, hc⟩
    exact ⟨⟨s₁, targets, hr⟩, (hstage hr).1 hc⟩
  · rintro ⟨⟨s₁, targets, hr⟩, hc⟩
    exact ⟨targets, s₁, hr, (hstage hr).2 hc⟩

/-- **A definition has the error that the order of its checks gives.** -/
theorem define_eq_error (hs : s.Sound) :
    s.define name definition = .error e ↔ s.Fault name definition e := by
  rw [define_eq_error_iff, resolve_eq_error hs, claimBase_resolved_eq_error hs]
  constructor
  · rintro (hn | ⟨hn, ⟨hname, rfl⟩ | ⟨hname, ⟨read, leaf, rest, hl, hpass, hf⟩ |
      ⟨hpass, hcomposite, first, hheld, rfl⟩⟩⟩)
    · obtain ⟨why, rfl⟩ := checkName_eq_error hn
      exact .invalidName hn
    · exact .duplicateCondition hn hname
    · exact .leaf hn hname hl hpass hf
    · exact .idCollision hn hname hpass hcomposite hheld
  · rintro (hn | ⟨hn, hname⟩ | ⟨hn, hname, hl, hpass, hf⟩ | ⟨hn, hname, hpass, hcomposite, hheld⟩)
    · exact .inl hn
    · exact .inr ⟨hn, .inl ⟨hname, rfl⟩⟩
    · exact .inr ⟨hn, .inr ⟨hname, .inl ⟨_, _, _, hl, hpass, hf⟩⟩⟩
    · exact .inr ⟨hn, .inr ⟨hname, .inr ⟨hpass, hcomposite, _, hheld, rfl⟩⟩⟩

/-- **Definitions have the error of the first one that has any**, and can be
made if none has. The scope in which a definition is judged is the one made of
the definitions before it. It makes no difference that its leaves are read
twice: the second reading, for the tree over toggles, never fails and brings
nothing in. -/
theorem create_eq_first_fault {parent : Option Scope} (hp : ∀ p ∈ parent, p.Reachable)
    (definitions : Definitions) :
    (∀ e, create definitions parent = .error e ↔
      ∃ front name definition rest s, definitions = front ++ (name, definition) :: rest ∧
        (start definitions parent).defineAll front = .ok s ∧ s.Fault name definition e) ∧
    ((∃ s, create definitions parent = .ok s) ↔
      ∀ front name definition rest s, definitions = front ++ (name, definition) :: rest →
        (start definitions parent).defineAll front = .ok s → ∀ e, ¬ s.Fault name definition e) ∧
    (∀ s name definition, define s name definition = defineTwice s name definition) ∧
    ∀ s definition tree s₁, resolveTo Target.tree definition s = .ok (tree, s₁) →
      resolveTo Target.toggle definition s₁ = .ok (s.toggleTree definition, s₁) := by
  have hstart := sound_start hp definitions
  have herror : ∀ e, create definitions parent = .error e ↔
      ∃ front name definition rest s, definitions = front ++ (name, definition) :: rest ∧
        (start definitions parent).defineAll front = .ok s ∧ s.Fault name definition e := by
    intro e
    rw [create_eq, defineAll_eq_error]
    refine exists₅_congr fun front name definition rest s => and_congr_right fun _ =>
      and_congr_right fun hok => define_eq_error (sound_defineAll hstart hok)
  refine ⟨herror, ?_, define_eq_defineTwice, fun s definition tree s₁ => resolveTo_toggle⟩
  cases hc : create definitions parent with
  | error e =>
    obtain ⟨front, name, definition, rest, s, he, hok, hf⟩ := (herror e).1 hc
    simp only [reduceCtorEq, exists_false, false_iff]
    exact fun h => h front name definition rest s he hok e hf
  | ok s =>
    refine iff_of_true ⟨s, rfl⟩ fun front name definition rest s₁ he hok e hf => ?_
    have hfail := (herror e).2 ⟨front, name, definition, rest, s₁, he, hok, hf⟩
    cases hc.symm.trans hfail

/-- In the second definition the unknown name comes before a text that is no
hook. -/
def lostDefinitions : Definitions :=
  [("edge", .leaf "&:focus"), ("lost", .and [.leaf "&:hover", .leaf "nowhere", .leaf "&\x7b"])]

/-- The name that building looked for in vain. -/
def missing? : Except Error Scope → Option String
  | .error (.unknownCondition name) => some name
  | _ => none

theorem create_eq_first_fault_lost :
    ∃ parent, root litDefinitions = .ok parent ∧
      ∃ front name definition rest s, lostDefinitions = front ++ (name, definition) :: rest ∧
        (start lostDefinitions (some parent)).defineAll front = .ok s ∧
        s.Fault name definition (.unknownCondition "nowhere") := by
  have hany : ((root litDefinitions).toOption.any fun parent =>
      decide (missing? (create lostDefinitions (some parent)) = some "nowhere")) = true := by
    decide +kernel
  obtain ⟨parent, hparent, hmissing⟩ := exists_of_any hany
  have hp : ∀ p ∈ some parent, p.Reachable := fun p hm => Option.some.inj hm ▸ .root hparent
  refine ⟨parent, hparent, ((create_eq_first_fault hp lostDefinitions).1 _).1 ?_⟩
  have hmissing := of_decide_eq_true hmissing
  unfold missing? at hmissing
  split at hmissing
  · rename_i hc
    rw [hc, Option.some.inj hmissing]
  · cases hmissing

end Scope

end VarLogic
