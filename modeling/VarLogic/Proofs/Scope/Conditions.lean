/-
Conditions on an element under the sheet of their scope. The network of a
condition points at the pairs of the conditions it refers to, its formula and
its value texts go down to hooks; both follow what the definition means, so
they agree: the toggle of a condition is on where its formula holds
(`toggle_agrees_with_formula`), and a value text resolves to the side that the
condition selects (`resolve_valueText`).
-/
import VarLogic.Proofs.Scope.Toggles

namespace VarLogic

open Condition (truth?)
open Element (IsPlain Settled)

/-! ## Networks -/

/-- What a leaf stands for is settled, and its toggle follows its tree. -/
structure Target.Follows (t : Target) (e : Element) (names : List String) (on : String → Bool) :
    Prop where
  settled : ∀ a ∈ t.toggle.leaves, IsPlain a ∧ e.Settled names a (e.state a)
  agrees : truth? e.state t.toggle = truth? on t.tree

namespace Target

variable {e : Element} {names : List String} {on : String → Bool}

theorem follows_hook {id : String} (hp : IsPlain id) (hs : e.Settled names id (on id)) :
    Follows (.hook id) e names on where
  settled := fun a ha => by
    obtain rfl : a = id := by simpa [toggle, Condition.leaves] using ha
    rw [hs.state_eq]
    exact ⟨hp, hs⟩
  agrees := by simp [toggle, tree, truth?, hs.state_eq]

theorem follows_none : Follows (.reference none) e names on where
  settled := by simp [toggle, Condition.vacuous, Condition.leaves, Condition.leavesOf]
  agrees := rfl

theorem follows_some {c : Condition Target} {base : String} {k : Compiled}
    (hk : Compiled.ofTargets? c base = some k) (hp : IsPlain k.toggle)
    (hs : e.Settled names k.toggle (k.formula.eval on)) : Follows (.reference (some k)) e names on where
  settled := fun a ha => by
    obtain rfl : a = k.toggle := by simpa [toggle, Condition.leaves] using ha
    rw [hs.state_eq]
    exact ⟨hp, hs⟩
  agrees := by simp [toggle, tree, truth?, hs.state_eq, Compiled.truth?_eq_eval hk]

end Target

/-- A network whose targets are settled settles its toggle. -/
theorem Compiled.settled {c : Condition Target} {base : String} {k : Compiled}
    (hk : ofTargets? c base = some k) (hb : IsPlain base) {e : Element} {names : List String}
    {on : String → Bool} (ht : ∀ t ∈ c.leaves, t.Follows e names on)
    (hl : ∀ d ∈ k.declarations, e.declared.lookup d.property = some d.value)
    (hn : ∀ d ∈ k.declarations, d.property ∉ names) :
    IsPlain k.toggle ∧
      e.Settled (names ++ k.declarations.map (·.property)) k.toggle (k.formula.eval on) := by
  obtain ⟨-, -, g, hg, htoggle, hdecl⟩ := ofTargets?_eq_some.1 hk
  have hleaves : ∀ a ∈ g.leaves, IsPlain a ∧ e.Settled names a (e.state a) := fun a ha => by
    rw [Condition.leaves_ofCondition? hg, Condition.leaves_bind, List.mem_flatMap] at ha
    obtain ⟨t, hmem, ha⟩ := ha
    exact (ht t hmem).settled a ha
  rw [htoggle, hdecl, ← eval_toggles hk hg fun t hmem => (ht t hmem).agrees]
  rw [hdecl] at hl hn
  exact ⟨Formula.isPlain_toggle hb fun a ha => (hleaves a ha).1,
    Formula.settled_network hb (fun a ha => (hleaves a ha).1) (fun a ha => (hleaves a ha).2) hl hn⟩

/-- The properties of the composite nodes of conditions. -/
def compositeNames (history : List NamedCondition) : List String :=
  (history.flatMap (·.declarations)).map (·.property)

theorem compositeNames_cons (c : NamedCondition) (earlier : List NamedCondition) :
    compositeNames (c :: earlier) = c.declarations.map (·.property) ++ compositeNames earlier := by
  simp [compositeNames]

/-- What a definition refers to follows its tree, if the conditions made before
it are settled. -/
theorem Made.follows {ids : String → Option String} {earlier : List NamedCondition}
    (h : Made ids earlier) {e : Element} {names : List String} {on : String → Bool}
    (hids : ∀ text id, ids text = some id → IsPlain id ∧ e.Settled names id (on id))
    (hs : ∀ c ∈ earlier, ∀ k, c.compiled = some k →
      IsPlain k.toggle ∧ e.Settled names k.toggle (k.formula.eval on))
    (definition : Condition String) :
    ∀ t ∈ (definition.bind (Target.leafOf ids (Scope.latest? earlier))).leaves,
      t.Follows e names on := by
  intro t ht
  obtain ⟨leaf, -, ho⟩ := Target.of_mem_leaves ht
  unfold Target.of? at ho
  split at ho
  · obtain ⟨id, hid, rfl⟩ := Option.map_eq_some_iff.1 ho
    obtain ⟨hp, hs⟩ := hids leaf id hid
    exact Target.follows_hook hp hs
  · obtain ⟨c, hlatest, rfl⟩ := Option.map_eq_some_iff.1 ho
    have hmem := Scope.mem_of_latest? hlatest
    cases hk : c.compiled with
    | none => exact Target.follows_none
    | some k =>
      obtain ⟨_, _, hof⟩ := h.compiled c hmem
      obtain ⟨hp, hs⟩ := hs c hmem k hk
      exact Target.follows_some (hof.symm.trans hk) hp hs

/-- **The toggle of a condition is on where its formula holds**, if the toggles
of the hooks are settled and the networks of all conditions are declared. -/
theorem Made.settled {ids : String → Option String} {history : List NamedCondition}
    (h : Made ids history) {e : Element} {names : List String} {on : String → Bool}
    (hids : ∀ text id, ids text = some id → IsPlain id ∧ e.Settled names id (on id))
    (hl : ∀ c ∈ history, ∀ d ∈ c.declarations, e.declared.lookup d.property = some d.value)
    (hn : (names ++ compositeNames history).Nodup) :
    ∀ c ∈ history, ∀ k, c.compiled = some k →
      IsPlain k.toggle ∧ e.Settled (names ++ compositeNames history) k.toggle (k.formula.eval on) := by
  induction h with
  | nil => simp
  | @cons c earlier base he hleaves hb hc ih =>
    rw [compositeNames_cons] at hn ⊢
    have hsub : (names ++ compositeNames earlier).Sublist
        (names ++ (c.declarations.map (·.property) ++ compositeNames earlier)) :=
      (List.sublist_append_right _ _).append_left _
    have ih := ih (fun d hd => hl d (by simp [hd])) (hsub.nodup hn)
    intro d hd k hk
    rcases List.mem_cons.1 hd with rfl | hd
    · have hdecl : d.declarations = k.declarations := by rw [NamedCondition.declarations, hk]
      have hearlier : ∀ text id, ids text = some id →
          IsPlain id ∧ e.Settled (names ++ compositeNames earlier) id (on id) := fun text id hid =>
        ⟨(hids text id hid).1, (hids text id hid).2.mono fun p hp => List.mem_append_left _ hp⟩
      rw [hdecl] at hn ⊢
      have hfree : ∀ x ∈ k.declarations, x.property ∉ names ++ compositeNames earlier := by
        intro x hx hm
        rw [List.nodup_append, List.nodup_append] at hn
        have hx := List.mem_map_of_mem (f := (·.property)) hx
        rcases List.mem_append.1 hm with hm | hm
        · exact hn.2.2 _ hm _ (List.mem_append_left _ hx) rfl
        · exact hn.2.1.2.2 _ hx _ hm rfl
      obtain ⟨hp, hs⟩ := Compiled.settled (hk.symm.trans hc).symm hb.isPlain
        (he.follows hearlier ih d.definition)
        (fun x hx => hl d (by simp) x (hdecl ▸ hx)) hfree
      refine ⟨hp, hs.mono fun p hm => ?_⟩
      simp only [List.mem_append] at hm ⊢
      rcases hm with (hm | hm) | hm
      · exact .inl hm
      · exact .inr (.inr hm)
      · exact .inr (.inl hm)
    · exact ⟨(ih d hd k hk).1, (ih d hd k hk).2.mono fun p hp => hsub.subset hp⟩

/-! ## Names -/

namespace Scope

theorem mem_namesInSight {levels : List Level} {name : String} :
    name ∈ Level.namesInSight levels ↔ ∃ level ∈ levels, name ∈ level.names := by
  induction levels with
  | nil => simp [Level.namesInSight]
  | cons level outer ih =>
    rw [Level.namesInSight, List.mem_append, List.mem_filter, decide_eq_true_eq,
      List.exists_mem_cons_iff, ← ih]
    constructor
    · rintro (h | ⟨h, -⟩)
      · exact .inr h
      · exact .inl h
    · intro h
      by_cases hm : name ∈ Level.namesInSight outer
      · exact .inl hm
      · exact .inr ⟨h.resolve_right hm, hm⟩

/-- The names in sight are those that stand for something. -/
theorem mem_names {s : Scope} {name : String} : name ∈ s.names ↔ (s.lookup? name).isSome := by
  rw [names, mem_namesInSight, lookup?, List.findSome?_isSome_iff]
  simp [Level.condition?, Level.names]

/-! ## Agreement -/

variable {s : Scope}

theorem isOn_of_hookId? (hs : s.Sound) (active : String → Bool) {text id : String} (h : s.hookId? text = some id) :
    s.isOn active id = active text := by
  obtain ⟨entry, hh, rfl, rfl⟩ := mem_hooks_of_hookId? h
  rw [isOn, Bool.eq_iff_iff, List.any_eq_true]
  constructor
  · rintro ⟨h', hh', ha⟩
    rw [Bool.and_eq_true, decide_eq_true_eq] at ha
    have : h' = entry := List.inj_on_of_nodup_map hs.nodup_hookIds hh' hh ha.1
    exact this ▸ ha.2
  · exact fun ha => ⟨entry, hh, by simp [ha]⟩

/-- The toggle of a hook is plain and on where the hook is active. -/
theorem settled_hookId (hs : s.Sound) (active : String → Bool) {text id : String} (h : s.hookId? text = some id) :
    IsPlain id ∧ (s.element active).Settled s.pairNames id (s.isOn active id) := by
  rw [isOn_of_hookId? hs active h]
  obtain ⟨entry, hh, rfl, rfl⟩ := mem_hooks_of_hookId? h
  have hw : ShortId.IsWord entry.id := hs.words (.ofHook entry)
    (s.perm_families.mem_iff.2 (List.mem_append_left _ (List.mem_map_of_mem hh)))
  exact ⟨hw.isPlain, settled_hook hs hh⟩

/-- The toggle of a condition is on where its formula holds. -/
theorem settled_condition (hs : s.Sound) (active : String → Bool) {c : NamedCondition} (hc : c ∈ s.history) {k : Compiled}
    (hk : c.compiled = some k) :
    (s.element active).Settled (s.pairNames ++ compositeNames s.history) k.toggle
      (k.formula.eval (s.isOn active)) := by
  have hn : (s.pairNames ++ compositeNames s.history).Nodup := by
    simpa [pairNames, compositeNames] using hs.nodup_declared
  exact (hs.made.settled (fun _ _ => settled_hookId hs active)
    (fun c hc d hd => lookup_composite hs hc hd) hn c hc k hk).2

theorem lookup?_some (hs : s.Sound) {name : String} {c : NamedCondition}
    (h : s.lookup? name = some c) : c ∈ s.history := by
  rw [hs.lookup?_eq] at h
  exact mem_of_latest? h

/-- What a name stands for has the truth value of its expansion. -/
theorem truth?_expansion (hs : s.Sound) (active : String → Bool) {name : String} {c : NamedCondition}
    (h : s.lookup? name = some c) :
    truth? active (s.expansion name) =
      c.compiled.map fun k => k.formula.eval (s.isOn active) := by
  have ht := hs.made.truth?_tree (fun _ _ => isOn_of_hookId? hs active) name
  rw [expansion, ← ht, Made.treeOf, ← hs.lookup?_eq, h]
  cases hk : c.compiled with
  | none => simp [hk, Target.tree, Condition.vacuous, truth?, Condition.truths]
  | some k =>
    obtain ⟨_, _, hof⟩ := hs.made.compiled c (lookup?_some hs h)
    simp [hk, Target.tree, Compiled.truth?_eq_eval (hof.symm.trans hk)]

/-- The formula of a name in sight holds where its expansion does. -/
theorem formula_eq (hs : s.Sound) {name : String} (hn : name ∈ s.names) :
    ∃ c ∈ s.history, s.lookup? name = some c ∧ s.formula name = .ok (c.compiled.map (·.formula)) := by
  obtain ⟨c, hc⟩ := Option.isSome_iff_exists.1 (mem_names.1 hn)
  exact ⟨c, lookup?_some hs hc, hc, by simp [formula, hc]⟩

/-- A name in sight that comes down to hooks was compiled. -/
theorem compiled_of_leaves (hs : s.Sound) {name : String} (hn : name ∈ s.names)
    (hv : (s.expansion name).leaves ≠ []) :
    ∃ c ∈ s.history, ∃ k, c.compiled = some k ∧ s.toggle? name = some k.toggle ∧
      s.formula name = .ok (some k.formula) := by
  obtain ⟨c, hc, hlookup, hformula⟩ := formula_eq hs hn
  have hsome := @Condition.isSome_truth? _ (fun _ : String => true) (s.expansion name)
  rw [truth?_expansion hs (fun _ => true) hlookup] at hsome
  cases hk : c.compiled with
  | none => simp [hk, hv] at hsome
  | some k =>
    refine ⟨c, hc, k, hk, ?_, by rw [hformula, hk, Option.map_some]⟩
    simp [toggle?, hlookup, NamedCondition.toggle?, hk]

/-- The leaves of a formula are the ids of hooks. -/
theorem hookId?_of_mem_leaves (hs : s.Sound) {c : NamedCondition} (hc : c ∈ s.history)
    {k : Compiled} (hk : c.compiled = some k) {a : String} (ha : a ∈ k.formula.leaves) :
    ∃ text, s.hookId? text = some a := by
  obtain ⟨_, _, hof⟩ := hs.made.compiled c hc
  rw [Condition.leaves_ofCondition? (Compiled.ofTargets?_eq_some.1 (hof.symm.trans hk)).2.1] at ha
  exact hs.made.ids_of_mem_leaves c hc a (by rw [hk]; exact ha)

/-- Lit is what is hovered and not in the dark. -/
def litDefinitions : Definitions :=
  [("dark", .leaf ".dark &"), ("lit", .and [.not (.leaf "dark"), .leaf "&:hover"])]

theorem exists_of_any {α : Type} {x : Except Error α} {p : α → Bool}
    (h : x.toOption.any p = true) : ∃ a, x = .ok a ∧ p a = true := by
  cases x with
  | error e => simp [Except.toOption] at h
  | ok a => exact ⟨a, rfl, by simpa [Except.toOption] using h⟩

/-- In the shade, lit is what is not lit outside. -/
def shadeDefinitions : Definitions :=
  [("lit", .not (.leaf "lit")), ("dim", .or [.leaf "lit", .leaf ".dim &"])]

theorem exists_nested_of_any {outer inner : Definitions} {p : Scope → Bool}
    (h : ((root outer).toOption.bind fun parent => (parent.nest inner).toOption).any p = true) :
    ∃ parent s, root outer = .ok parent ∧ parent.nest inner = .ok s ∧ p s = true := by
  rw [Option.any_bind] at h
  obtain ⟨parent, hparent, h⟩ := exists_of_any h
  obtain ⟨s, hs, hp⟩ := exists_of_any h
  exact ⟨parent, s, hparent, hs, hp⟩

/-- **The network of a condition and its formula agree.** Whatever hooks are
active, the pair of a condition that has a hook in it has exactly one side
without a value, and that is `-1` where the formula holds. -/
theorem toggle_agrees_with_formula {s : Scope} (h : s.Reachable) {name : String}
    (hn : name ∈ s.names) (hv : (s.expansion name).leaves ≠ []) :
    ∃ id f, s.toggle? name = some id ∧ s.formula name = .ok (some f) ∧
      ∀ active : String → Bool,
        ((s.element active).value? (Toggle.property id true) = none ↔
          f.eval (s.isOn active) = true) ∧
        ((s.element active).value? (Toggle.property id false) = none ↔
          f.eval (s.isOn active) = false) := by
  obtain ⟨c, hc, hlookup, hformula⟩ := formula_eq h.sound hn
  have ht := truth?_expansion h.sound (fun _ => true) hlookup
  cases hk : c.compiled with
  | none =>
    have hsome := @Condition.isSome_truth? _ (fun _ : String => true) (s.expansion name)
    rw [ht, hk] at hsome
    simp [hv] at hsome
  | some k =>
    refine ⟨k.toggle, k.formula, ?_, by rw [hformula, hk, Option.map_some], fun active => ?_⟩
    · simp [toggle?, hlookup, NamedCondition.toggle?, hk]
    · obtain ⟨hlost, value, hkept, -⟩ := settled_condition h.sound active hc hk [] (by simp)
      simp only [Element.value?, Option.map_eq_none_iff]
      generalize k.formula.eval (s.isOn active) = on at hlost hkept
      cases on with
      | true => rw [Bool.not_true] at hkept; simp [hlost, hkept]
      | false => rw [Bool.not_false] at hkept; simp [hlost, hkept]

theorem toggle_agrees_in_the_dark :
    ∃ s id f, root litDefinitions = .ok s ∧ s.toggle? "lit" = some id ∧
      s.formula "lit" = .ok (some f) ∧
        ((s.element (· = ".dark &")).value? (Toggle.property id true) = none ↔
          f.eval (s.isOn (· = ".dark &")) = true) := by
  have hany : ((root litDefinitions).toOption.any fun s =>
      decide ("lit" ∈ s.names ∧ (s.expansion "lit").leaves ≠ [])) = true := by decide +kernel
  obtain ⟨s, hs, hp⟩ := exists_of_any hany
  obtain ⟨hn, hv⟩ := of_decide_eq_true hp
  obtain ⟨id, f, ht, hf, h⟩ := toggle_agrees_with_formula (.root hs) hn hv
  exact ⟨s, id, f, hs, ht, hf, (h (· = ".dark &")).1⟩

/-- **A value text resolves to the side its condition selects.** On an element
under the sheet of its scope, where the hooks in `active` match, it stands for
`ifTrue` if the condition holds with all names expanded, and for `ifFalse` if
it does not, or if there is no hook in it. -/
theorem resolve_valueText {s : Scope} (h : s.Reachable) {name : String} (hn : name ∈ s.names)
    (active : String → Bool) {ifTrue ifFalse : String}
    (ht : Element.Balanced ifTrue.toList ∧ ¬ Element.HasReference ifTrue.toList)
    (hf : Element.Balanced ifFalse.toList ∧ ¬ Element.HasReference ifFalse.toList) :
    ∃ text, s.valueText name ifTrue ifFalse = .ok text ∧
      (s.element active).resolve? text =
        some (Element.collapse
          (if truth? active (s.expansion name) = some true then ifTrue else ifFalse).toList) := by
  obtain ⟨c, hc, hlookup, hformula⟩ := formula_eq h.sound hn
  rw [truth?_expansion h.sound active hlookup]
  cases hk : c.compiled with
  | none =>
    refine ⟨ifFalse, by simp [valueText, hformula, hk, bind, Except.bind, pure, Except.pure], ?_⟩
    simp [Element.resolve?, Element.substitute?_plain hf.2]
  | some k =>
    refine ⟨k.formula.valueText ifTrue ifFalse,
      by simp [valueText, hformula, hk, bind, Except.bind, pure, Except.pure], ?_⟩
    have hleaf : ∀ a ∈ k.formula.leaves, IsPlain a ∧
        (s.element active).Decides [] a (s.isOn active a) := fun a ha => by
      obtain ⟨_, _, hof⟩ := h.sound.made.compiled c hc
      rw [Condition.leaves_ofCondition? (Compiled.ofTargets?_eq_some.1 (hof.symm.trans hk)).2.1] at ha
      obtain ⟨text, hid⟩ := h.sound.made.ids_of_mem_leaves c hc a (by rw [hk]; exact ha)
      obtain ⟨hp, hset⟩ := settled_hookId h.sound active hid
      exact ⟨hp, hset [] (by simp)⟩
    have hpad := Element.substitute?_valueText (fun a ha => (hleaf a ha).1)
      (fun a ha => (hleaf a (Formula.mem_leaves_of_asked ha)).2) ht.1 hf.1
    rw [Element.resolve?, hpad.map_collapse, Option.map_some]
    cases k.formula.eval (s.isOn active) with
    | true => simp [Element.substitute?_plain ht.2]
    | false => simp [Element.substitute?_plain hf.2]

theorem resolve_valueText_hovered :
    ∃ s text, root litDefinitions = .ok s ∧ s.valueText "lit" "1px" "2px" = .ok text ∧
      (s.element (· = "&:hover")).resolve? text = some "1px" := by
  have hany : ((root litDefinitions).toOption.any fun s => decide ("lit" ∈ s.names ∧
      truth? (· = "&:hover") (s.expansion "lit") = some true)) = true := by decide +kernel
  obtain ⟨s, hs, hp⟩ := exists_of_any hany
  obtain ⟨hn, ht⟩ := of_decide_eq_true hp
  have htrue : IsPlain "1px" := by simp [IsPlain, Text.isBlank]
  have hfalse : IsPlain "2px" := by simp [IsPlain, Text.isBlank]
  obtain ⟨text, htext, h⟩ := resolve_valueText (.root hs) hn (· = "&:hover")
    ⟨htrue.balanced, htrue.not_hasReference⟩ ⟨hfalse.balanced, hfalse.not_hasReference⟩
  rw [if_pos ht] at h
  exact ⟨s, text, hs, htext, h.trans (by decide)⟩

end Scope

end VarLogic
