/-
The declarations of a scope come in an order in which every one refers only to
properties declared before it: first the sheet, then what goes inline. A
network refers to its leaves and goes on from children to parents
(`inOrder_network`), a condition refers to hooks and to conditions made before
it (`Made.inOrder`), and a level comes after the levels around it
(`listed_inner`). So nothing refers to a property that is not declared, and
no property depends on itself (`declared_in_order`).
-/
import VarLogic.Proofs.Element.References
import VarLogic.Proofs.Scope.Build
import VarLogic.Proofs.Scope.Generated

namespace VarLogic

open Element (IsPlain)

/-- A toggle both of whose properties are among `known`. -/
structure Known (known : List String) (id : String) : Prop where
  plain : IsPlain id
  declared : ∀ on, Toggle.property id on ∈ known

theorem Known.mono {known known' : List String} {id : String} (h : Known known id)
    (hk : ∀ p ∈ known, p ∈ known') : Known known' id :=
  ⟨h.plain, fun on => hk _ (h.declared on)⟩

/-! ## Networks -/

namespace Formula

variable {known : List String}

/-- A network refers to its leaves and to what it has declared before. -/
theorem inOrder_network {f : Formula String} {id : String} (hid : IsPlain id)
    (hk : ∀ a ∈ f.leaves, Known known a) :
    InOrder known (f.network id) ∧
      Known (known ++ (f.network id).map (·.property)) (f.toggle id) := by
  have hp : ∀ a ∈ f.leaves, IsPlain a := fun a ha => (hk a ha).plain
  refine ⟨.of_before fun front d rest h p hm => ?_, isPlain_toggle hid hp, fun on => ?_⟩
  · obtain ⟨a, on, rfl, ha | hside⟩ := refersTo_network hid hp h p hm
    · exact List.mem_append_left _ ((hk a ha).declared on)
    · exact List.mem_append_right _ (hside on)
  · rw [List.mem_append]
    exact (f.toggle_declared id).imp (fun ha => (hk _ ha).declared on) fun hside => hside on

end Formula

/-! ## Conditions -/

/-- The network of a condition refers to the toggles that its leaves stand
for. -/
theorem Compiled.inOrder {c : Condition Target} {base : String} {k : Compiled}
    (hk : ofTargets? c base = some k) (hb : IsPlain base) {known : List String}
    (ht : ∀ t ∈ c.leaves, ∀ a ∈ t.toggle.leaves, Known known a) :
    InOrder known k.declarations ∧ Known (known ++ k.declarations.map (·.property)) k.toggle := by
  obtain ⟨-, -, g, hg, htoggle, hdecl⟩ := ofTargets?_eq_some.1 hk
  rw [htoggle, hdecl]
  refine Formula.inOrder_network hb fun a ha => ?_
  rw [Condition.leaves_ofCondition? hg, Condition.leaves_bind, List.mem_flatMap] at ha
  obtain ⟨t, hmem, ha⟩ := ha
  exact ht t hmem a ha

/-- What the leaves of a definition stand for is known, if hooks are and the
conditions made before. -/
theorem Target.known_of_mem_leaves {ids : String → Option String} {earlier : List NamedCondition}
    {known : List String} (hids : ∀ text id, ids text = some id → Known known id)
    (he : ∀ c ∈ earlier, ∀ k, c.compiled = some k → Known known k.toggle)
    {definition : Condition String} {t : Target}
    (ht : t ∈ (definition.bind (leafOf ids (Scope.latest? earlier))).leaves) :
    ∀ a ∈ t.toggle.leaves, Known known a := by
  intro a ha
  obtain ⟨leaf, -, ho⟩ := of_mem_leaves ht
  unfold of? at ho
  split at ho
  · obtain ⟨id, hid, rfl⟩ := Option.map_eq_some_iff.1 ho
    obtain rfl : a = id := by simpa [toggle, Condition.leaves] using ha
    exact hids leaf a hid
  · obtain ⟨c, hc, rfl⟩ := Option.map_eq_some_iff.1 ho
    cases hk : c.compiled with
    | none => simp [toggle, hk, Condition.vacuous, Condition.leaves, Condition.leavesOf] at ha
    | some k =>
      obtain rfl : a = k.toggle := by simpa [toggle, hk, Condition.leaves] using ha
      exact he c (Scope.mem_of_latest? hc) k hk

/-- Conditions refer to hooks and to conditions made before them; `recent` are
the latest of them. -/
theorem Made.inOrder {ids : String → Option String} {recent earlier : List NamedCondition}
    (h : Made ids (recent ++ earlier)) {known : List String}
    (hids : ∀ text id, ids text = some id → Known known id)
    (he : ∀ c ∈ earlier, ∀ k, c.compiled = some k → Known known k.toggle) :
    InOrder known (recent.reverse.flatMap (·.declarations)) ∧
      ∀ c ∈ recent ++ earlier, ∀ k, c.compiled = some k →
        Known (known ++ (recent.reverse.flatMap (·.declarations)).map (·.property)) k.toggle := by
  induction recent with
  | nil => exact ⟨trivial, by simpa using he⟩
  | cons c recent ih =>
    cases h with
    | cons hmade hl hbase hc =>
    obtain ⟨hrecent, hknown⟩ := ih hmade
    have hleft : ∀ p ∈ known, p ∈ known ++ (recent.reverse.flatMap (·.declarations)).map (·.property) :=
      fun p => List.mem_append_left _
    have htargets := fun t => @Target.known_of_mem_leaves ids (recent ++ earlier) _
      (fun text id hid => (hids text id hid).mono hleft) hknown c.definition t
    simp only [List.reverse_cons, List.flatMap_append, List.flatMap_cons, List.flatMap_nil,
      List.append_nil, InOrder.append, List.map_append, ← List.append_assoc]
    cases hk : c.compiled with
    | none =>
      have hdecl : c.declarations = [] := by simp [NamedCondition.declarations, hk]
      refine ⟨⟨hrecent, by rw [hdecl]; trivial⟩, fun d hd k hdk => ?_⟩
      rcases List.mem_cons.1 hd with rfl | hd
      · simp [hk] at hdk
      · exact (hknown d hd k hdk).mono fun p => List.mem_append_left _
    | some k =>
      have hdecl : c.declarations = k.declarations := by simp [NamedCondition.declarations, hk]
      obtain ⟨horder, htoggle⟩ := Compiled.inOrder (hc.symm.trans hk) hbase.isPlain htargets
      rw [← hdecl] at horder htoggle
      refine ⟨⟨hrecent, horder⟩, fun d hd k' hdk => ?_⟩
      rcases List.mem_cons.1 hd with rfl | hd
      · obtain rfl : k = k' := Option.some.inj (hk.symm.trans hdk)
        exact htoggle
      · exact (hknown d hd k' hdk).mono fun p => List.mem_append_left _

/-! ## Scopes -/

namespace Scope

variable {s : Scope}

/-- The declarations at rest: the `*` block, and then those that go inline. -/
def declared (s : Scope) : List Declaration := Level.defaultsOf s.levels ++ s.declarations

/-- The pair of a hook refers to nothing, neither at rest nor while the hook is
active. -/
theorem mentioned_of_mem_pair {id : String} {d : Declaration}
    (hd : d ∈ Sheet.atRest id ++ Sheet.whileActive id) : d.mentioned = [] := by
  have hvalue : d.value = "initial" ∨ d.value = "" := by
    simp only [Sheet.atRest, Sheet.whileActive, List.mem_append, List.mem_cons, List.not_mem_nil,
      or_false] at hd
    rcases hd with (rfl | rfl) | (rfl | rfl) <;> simp
  rw [Declaration.mentioned]
  rcases hvalue with he | he <;> rw [he] <;> decide

theorem inOrder_atRest {known : List String} (hooks : List HookEntry) :
    InOrder known (hooks.flatMap (Sheet.atRest ·.id)) := by
  refine InOrder.of_mentioned_eq_nil fun d hd => ?_
  obtain ⟨h, -, hd⟩ := List.mem_flatMap.1 hd
  exact mentioned_of_mem_pair (List.mem_append_left _ hd)

/-- The pair of a hook is declared. -/
theorem known_hookId (hs : s.Sound) {text id : String} (h : s.hookId? text = some id) :
    Known s.pairNames id := by
  refine ⟨(settled_hookId hs (fun _ => false) h).1, fun on => ?_⟩
  obtain ⟨entry, hh, -, rfl⟩ := mem_hooks_of_hookId? h
  exact property_mem_pairNames hh on

/-- The pairs of all hooks stand in the `*` block. -/
theorem mem_defaults_of_mem_pairNames {p : String} (hp : p ∈ s.pairNames) :
    p ∈ (Level.defaultsOf s.levels).map (·.property) := by
  obtain ⟨d, hd, rfl⟩ := List.mem_map.1 hp
  obtain ⟨h, hh, hd⟩ := List.mem_flatMap.1 hd
  exact List.mem_map_of_mem (atRest_mem_defaultsOf hh hd)

theorem declared_outermost {hash : String} {level : Level} :
    declared ⟨hash, level, []⟩ = level.hooks.flatMap (Sheet.atRest ·.id) ++ level.declarations := by
  simp [declared, declarations, levels, Level.defaultsOf, Level.ownDefaults,
    Level.inlineDeclarations]

theorem defaultsOf_inner (level : Level) (parent : Scope) :
    Level.defaultsOf (level :: parent.levels) =
      Level.defaultsOf parent.levels ++ level.hooks.flatMap (Sheet.atRest ·.id) := by
  simp [levels, Level.defaultsOf, Level.ownDefaults]

theorem declared_inner {hash : String} {level : Level} {parent : Scope} :
    declared ⟨hash, level, parent.levels⟩ =
      Level.defaultsOf parent.levels ++ level.hooks.flatMap (Sheet.atRest ·.id) ++
        parent.declarations ++ level.declarations := by
  simp [declared, declarations, levels, Level.defaultsOf, Level.ownDefaults,
    Level.inlineDeclarations]

/-- The order of the declarations of a scope, with the toggles of all its
conditions among them. -/
structure Listed (s : Scope) : Prop where
  order : InOrder [] s.declared
  toggles : ∀ c ∈ s.history, ∀ k, c.compiled = some k →
    Known (s.declared.map (·.property)) k.toggle

theorem listed_outermost {hash : String} {level : Level} (hs : Sound ⟨hash, level, []⟩) :
    Listed ⟨hash, level, []⟩ := by
  have hmade : Made (hookId? ⟨hash, level, []⟩) (level.conditions.reverse ++ []) := by
    simpa [history, levels] using hs.made
  have hids : ∀ text id, hookId? ⟨hash, level, []⟩ text = some id →
      Known ((level.hooks.flatMap (Sheet.atRest ·.id)).map (·.property)) id := by
    simpa [pairNames, hooks, levels] using fun text id => @known_hookId _ hs text id
  obtain ⟨horder, hknown⟩ := hmade.inOrder hids (by simp)
  rw [List.reverse_reverse] at horder hknown
  constructor
  · rw [declared_outermost, InOrder.append]
    exact ⟨inOrder_atRest _, by simpa [Level.declarations] using horder⟩
  · intro c hc k hk
    rw [declared_outermost, List.map_append]
    exact hknown c (by simpa [history, levels] using hc) k hk

/-- The pairs of new hooks come between the sheet and the inline declarations,
and new conditions after all others. -/
theorem listed_inner {hash : String} {level : Level} {parent : Scope} (hp : parent.Listed)
    (hs : Sound ⟨hash, level, parent.levels⟩) :
    Listed ⟨hash, level, parent.levels⟩ := by
  obtain ⟨hdefaults, hinline⟩ := InOrder.append.1 hp.order
  have hbefore : InOrder [] (Level.defaultsOf parent.levels ++
      level.hooks.flatMap (Sheet.atRest ·.id) ++ parent.declarations) := by
    refine InOrder.append.2 ⟨InOrder.append.2 ⟨hdefaults, inOrder_atRest _⟩, hinline.mono ?_⟩
    intro p hm
    simpa using .inl (by simpa using hm)
  have hmade : Made (hookId? ⟨hash, level, parent.levels⟩)
      (level.conditions.reverse ++ parent.history) := hs.made
  have hids : ∀ text id, hookId? ⟨hash, level, parent.levels⟩ text = some id →
      Known ((Level.defaultsOf parent.levels ++ level.hooks.flatMap (Sheet.atRest ·.id) ++
        parent.declarations).map (·.property)) id := by
    refine fun text id hid => (known_hookId hs hid).mono fun p hm => ?_
    have hp := mem_defaults_of_mem_pairNames hm
    rw [levels, defaultsOf_inner] at hp
    rw [List.map_append]
    exact List.mem_append_left _ hp
  obtain ⟨horder, hknown⟩ := hmade.inOrder hids fun c hc k hk =>
    (hp.toggles c hc k hk).mono fun p hm => by
      simp only [declared, List.map_append, List.mem_append] at hm ⊢
      exact hm.imp_left .inl
  rw [List.reverse_reverse] at horder hknown
  constructor
  · rw [declared_inner, InOrder.append]
    exact ⟨hbefore, by simpa [Level.declarations] using horder⟩
  · intro c hc k hk
    rw [declared_inner, List.map_append]
    exact hknown c hc k hk

theorem Reachable.listed {s : Scope} (h : s.Reachable) : s.Listed := by
  induction h with
  | @root definitions s h =>
    have hs := (Reachable.root h).sound
    obtain ⟨hash, level, ancestors⟩ := s
    obtain rfl : ancestors = [] := (shape_defineAll h).2.1
    exact listed_outermost hs
  | @nest parent s definitions hp h ih =>
    have hs := (Reachable.nest hp h).sound
    obtain ⟨hash, level, ancestors⟩ := s
    obtain rfl : ancestors = parent.levels := (shape_defineAll h).2.1
    exact listed_inner ih hs

theorem declared_eq (hs : s.Sound) : s.declared = s.sheet.defaults ++ s.declarations := by
  rw [hs.sheet_eq, declared]

/-- Rules refer to nothing, so on an element under the sheet only what is
declared at rest or inline does. -/
theorem declared_of_refers (hs : s.Sound) {active : String → Bool} {p q : String}
    (h : (s.element active).Refers p q) :
    ∃ d ∈ s.declared, d.property = p ∧ q ∈ d.mentioned := by
  obtain ⟨raw, hlookup, hq⟩ := h
  rcases mem_of_lookup hs hlookup with hrest | hactive
  · exact ⟨_, hrest, rfl, hq⟩
  · obtain ⟨h, -, -, hd⟩ := (mem_activeDeclarations hs).1 hactive
    have hnone := mentioned_of_mem_pair (List.mem_append_right _ hd)
    rw [Declaration.mentioned] at hnone
    rw [hnone] at hq
    cases hq

/-- **Everything is declared before it is referred to.** In the `*` block and
then the inline declarations, a declaration mentions only properties declared
earlier; on no element does a property depend on itself; and the toggle of a
name that comes down to hooks is declared, as are those of all hooks its
formula asks. -/
theorem declared_in_order {s : Scope} (h : s.Reachable) :
    (∀ front d rest, s.sheet.defaults ++ s.declarations = front ++ d :: rest →
      ∀ p ∈ d.mentioned, p ∈ front.map (·.property)) ∧
    (∀ active p, ¬ Relation.TransGen (s.element active).Refers p p) ∧
    ∀ name ∈ s.names, (s.expansion name).leaves ≠ [] →
      ∃ id f, s.toggle? name = some id ∧ s.formula name = .ok (some f) ∧
        ∀ a ∈ id :: f.leaves, ∀ on, Toggle.property a on ∈
          (s.sheet.defaults ++ s.declarations).map (·.property) := by
  have hs := h.sound
  rw [← declared_eq hs]
  refine ⟨fun front d rest he p hp => ?_, fun active p => ?_, fun name hn hv => ?_⟩
  · exact (he ▸ h.listed.order).mem_before hp
  · exact Element.acyclic_of_inOrder h.listed.order hs.nodup_properties
      (fun _ _ => declared_of_refers hs) p
  · obtain ⟨c, hc, k, hk, htoggle, hformula⟩ := compiled_of_leaves hs hn hv
    refine ⟨k.toggle, k.formula, htoggle, hformula, fun a ha => ?_⟩
    rcases List.mem_cons.1 ha with rfl | ha
    · exact (h.listed.toggles c hc k hk).declared
    · obtain ⟨text, hid⟩ := hookId?_of_mem_leaves hs hc hk ha
      intro on
      rw [declared, List.map_append]
      exact List.mem_append_left _
        (mem_defaults_of_mem_pairNames ((known_hookId hs hid).declared on))

theorem declared_in_order_shade :
    ∃ parent s id f, root litDefinitions = .ok parent ∧ parent.nest shadeDefinitions = .ok s ∧
      s.toggle? "dim" = some id ∧ s.formula "dim" = .ok (some f) ∧
        (∀ a ∈ id :: f.leaves, ∀ on, Toggle.property a on ∈
          (s.sheet.defaults ++ s.declarations).map (·.property)) ∧
        ∀ active p, ¬ Relation.TransGen (s.element active).Refers p p := by
  have hany : ((root litDefinitions).toOption.bind fun parent =>
      (parent.nest shadeDefinitions).toOption).any (fun s =>
        decide ("dim" ∈ s.names ∧ (s.expansion "dim").leaves ≠ [])) = true := by
    decide +kernel
  obtain ⟨parent, s, hparent, hs, hp⟩ := exists_nested_of_any hany
  obtain ⟨hn, hv⟩ := of_decide_eq_true hp
  obtain ⟨-, hcycle, hdeclared⟩ := declared_in_order (.nest (.root hparent) hs)
  obtain ⟨id, f, htoggle, hformula, h⟩ := hdeclared "dim" hn hv
  exact ⟨parent, s, id, f, hparent, hs, htoggle, hformula, h, hcycle⟩

end Scope

end VarLogic
