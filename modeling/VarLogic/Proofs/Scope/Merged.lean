/-
Scopes below one outermost scope share a document. Their sheets agree wherever
they declare the same property (`consistent_sheets`): what they have in common
are pairs of hooks, which an id determines, and the composite nodes of the
outermost level. A rule of another scope's hook flips a pair of this scope only
if the two hooks have one id, so if ids tell hooks apart, an element under all
sheets merged has for every property of a scope what it has under that scope's
own sheet (`lookup_merged`), and so every toggle of the scope is the same
(`value?_merged`).
-/
import VarLogic.Proofs.Element.Agreement
import VarLogic.Proofs.Scope.Key
import VarLogic.Proofs.Scope.Order
import VarLogic.Proofs.Sheet.Merging

namespace VarLogic

open Sheet (mergeAll Consistent)

/-! ## Conditions -/

/-- The networks of conditions ask for what they mention. -/
theorem Made.tidy {ids : String → Option String} {history : List NamedCondition}
    (h : Made ids history) {known : List String}
    (hids : ∀ text id, ids text = some id → Known known id)
    (ht : ∀ c ∈ history, ∀ k, c.compiled = some k → Known known k.toggle) :
    ∀ c ∈ history, ∀ d ∈ c.declarations, d.Tidy := by
  induction h with
  | nil => simp
  | @cons c earlier base hmade hl hbase hc ih =>
    have hearlier := fun c hc => ht c (List.mem_cons_of_mem _ hc)
    rw [List.forall_mem_cons]
    refine ⟨fun d hd => ?_, ih hearlier⟩
    cases hk : c.compiled with
    | none => simp [NamedCondition.declarations, hk] at hd
    | some k =>
      obtain ⟨-, -, g, hg, -, hdecl⟩ := Compiled.ofTargets?_eq_some.1 (hc.symm.trans hk)
      have hleaves : ∀ a ∈ g.leaves, Element.IsPlain a := fun a ha => by
        rw [Condition.leaves_ofCondition? hg, Condition.leaves_bind, List.mem_flatMap] at ha
        obtain ⟨t, hmem, ha⟩ := ha
        exact (Target.known_of_mem_leaves hids hearlier hmem a ha).plain
      have hnetwork : d ∈ g.network base := by
        simpa [NamedCondition.declarations, hk, hdecl] using hd
      exact Formula.tidy_network hbase.isPlain hleaves d hnetwork

namespace Scope

/-! ## One scope -/

variable {s : Scope} {active : String → Bool}

/-- The pair of a hook asks for nothing. -/
theorem tidy_of_mem_pair {id : String} {d : Declaration}
    (hd : d ∈ Sheet.atRest id ++ Sheet.whileActive id) : d.Tidy := by
  have hvalue : Element.IsPlain d.value := by
    simp only [Sheet.atRest, Sheet.whileActive, List.mem_append, List.mem_cons, List.not_mem_nil,
      or_false] at hd
    rcases hd with (rfl | rfl) | (rfl | rfl) <;> simp [Element.IsPlain, Text.isBlank]
  rw [Declaration.Tidy, mentioned_of_mem_pair hd, Element.asked_plain hvalue.not_hasReference]

/-- What an element under the sheet of its scope has asks for what it mentions. -/
theorem Reachable.tidy_of_lookup (h : s.Reachable) {p raw : String}
    (hl : (s.element active).declared.lookup p = some raw) : (Declaration.mk p raw).Tidy := by
  have hs := h.sound
  rcases mem_of_lookup hs hl with hrest | hactive
  · rw [s.perm_declared.mem_iff, List.mem_append, List.mem_flatMap, List.mem_flatMap] at hrest
    rcases hrest with ⟨h, -, hd⟩ | ⟨c, hc, hd⟩
    · exact tidy_of_mem_pair (List.mem_append_left _ hd)
    · have hids : ∀ text id, s.hookId? text = some id → Known (s.declared.map (·.property)) id :=
        fun text id hid => (known_hookId hs hid).mono fun p hp => by
          rw [declared, List.map_append]
          exact List.mem_append_left _ (mem_defaults_of_mem_pairNames hp)
      exact hs.made.tidy hids h.listed.toggles c hc _ hd
  · obtain ⟨h, -, -, hd⟩ := (mem_activeDeclarations hs).1 hactive
    exact tidy_of_mem_pair (List.mem_append_right _ hd)

/-- What a scope declares asks only for what it declares. -/
theorem Reachable.asked_declared (h : s.Reachable) {p raw : String}
    (hl : (s.element active).declared.lookup p = some raw) :
    ∀ q ∈ Element.asked raw.toList, q ∈ s.declared.map (·.property) := by
  intro q hq
  have htidy : Element.asked raw.toList = Element.mentioned raw.toList := h.tidy_of_lookup hl
  have hrefers : (s.element active).Refers p q := ⟨raw, hl, htidy ▸ hq⟩
  obtain ⟨d, hd, -, hm⟩ := declared_of_refers h.sound hrefers
  obtain ⟨front, rest, he⟩ := List.append_of_mem hd
  have hbefore := (he ▸ h.listed.order).mem_before hm
  rw [he, List.map_append]
  exact List.mem_append_left _ (by simpa using hbefore)

/-! ## Below an outermost scope -/

/-- The scopes nested in a scope to any depth, and the scope itself. -/
inductive Encloses (outer : Scope) : Scope → Prop where
  | refl : Encloses outer outer
  | nest {parent s : Scope} {definitions : Definitions} :
      Encloses outer parent → parent.nest definitions = .ok s → Encloses outer s

variable {r : Scope} {definitions : Definitions}

theorem Encloses.reachable (h : r.Encloses s) (hr : r.Reachable) : s.Reachable := by
  induction h with
  | refl => exact hr
  | nest _ hn ih => exact .nest ih hn

theorem Encloses.levels_eq (h : r.Encloses s) : ∃ inner, s.levels = inner ++ r.levels := by
  induction h with
  | refl => exact ⟨[], rfl⟩
  | @nest parent s _ _ hn ih =>
    obtain ⟨inner, hinner⟩ := ih
    refine ⟨s.level :: inner, ?_⟩
    rw [levels, (shape_defineAll hn).2.1, hinner, List.cons_append]

/-- A scope below an outermost one. -/
structure Below (r s : Scope) : Prop where
  sound : s.Sound
  levels : ∃ inner, s.levels = inner ++ [r.level]

theorem below_of_encloses (hr : root definitions = .ok r) (h : r.Encloses s) : r.Below s where
  sound := (h.reachable (.root hr)).sound
  levels := by
    obtain ⟨inner, he⟩ := h.levels_eq
    exact ⟨inner, by rw [he, Scope.levels, (shape_defineAll hr).2.1]⟩

namespace Below

variable {t : Scope}

/-- The `*` block has the pairs of hooks and what the outermost level declares. -/
theorem mem_defaults (h : r.Below s) {d : Declaration} :
    d ∈ s.sheet.defaults ↔
      (∃ e ∈ s.hooks, d ∈ Sheet.atRest e.id) ∨ d ∈ r.level.declarations := by
  obtain ⟨inner, he⟩ := h.levels
  rw [h.sound.sheet_eq, he, Level.defaultsOf_append, hooks, he, List.flatMap_append]
  simp only [Level.ownDefaults, List.mem_append, List.mem_flatMap, Level.mem_hooksOf, if_true,
    List.mem_singleton, exists_eq_left, or_and_right, exists_or]
  rw [or_comm, ← or_assoc]

/-- What the outermost level declares is declared by a condition in sight. -/
theorem mem_history (h : r.Below s) {d : Declaration} (hd : d ∈ r.level.declarations) :
    d ∈ s.history.flatMap (·.declarations) := by
  obtain ⟨inner, he⟩ := h.levels
  obtain ⟨c, hc, hd⟩ := List.mem_flatMap.1 hd
  refine List.mem_flatMap.2 ⟨c, ?_, hd⟩
  rw [history, he, List.flatMap_append]
  exact List.mem_append_right _ (by simpa using hc)

/-- The composite nodes of the outermost level have other names than hooks. -/
theorem not_mem_pairNames (h : r.Below s) {d : Declaration} (hd : d ∈ r.level.declarations) :
    d.property ∉ s.pairNames := fun hp => by
  have hn := h.sound.nodup_declared
  rw [List.map_append, List.nodup_append] at hn
  exact hn.2.2 _ hp _ (List.mem_map_of_mem (h.mem_history hd)) rfl

/-- **Sheets of scopes below one scope agree** on the properties they share. -/
theorem defaults_agree (h : r.Below s) (h' : r.Below t) {d d' : Declaration}
    (hd : d ∈ s.sheet.defaults) (hd' : d' ∈ t.sheet.defaults) (he : d.property = d'.property) :
    d = d' := by
  rcases h.mem_defaults.1 hd with ⟨e, hmem, hd⟩ | hd <;>
    rcases h'.mem_defaults.1 hd' with ⟨e', hmem', hd'⟩ | hd'
  · obtain ⟨on, hp⟩ := property_of_mem_atRest hd
    obtain ⟨on', hp'⟩ := property_of_mem_atRest hd'
    have hid : e.id = e'.id := (Toggle.property_inj.1 (hp.symm.trans (he.trans hp'))).1
    rw [← hid] at hd'
    exact List.inj_on_of_nodup_map (Family.named_ofHook e).nodup hd hd' he
  · exact absurd (he ▸ mem_pairNames_of_atRest hmem hd) (h.not_mem_pairNames hd')
  · exact absurd (he ▸ mem_pairNames_of_atRest hmem' hd') (h'.not_mem_pairNames hd)
  · have hn := h.sound.nodup_declared
    rw [List.map_append] at hn
    exact List.inj_on_of_nodup_map hn.of_append_right (h.mem_history hd) (h.mem_history hd') he

end Below

/-! ## Many scopes -/

/-- No two different hooks of the scopes have one id. -/
def HookIdsDiffer (scopes : List Scope) : Prop :=
  ∀ s ∈ scopes, ∀ t ∈ scopes, ∀ e ∈ s.hooks, ∀ e' ∈ t.hooks,
    e.id = e'.id → e.hook.text = e'.hook.text

instance (scopes : List Scope) : Decidable (HookIdsDiffer scopes) :=
  inferInstanceAs (Decidable (∀ s ∈ scopes, ∀ t ∈ scopes, ∀ e ∈ s.hooks, ∀ e' ∈ t.hooks, _ → _))

/-- An element that uses a scope under some sheet. -/
def elementUnder (s : Scope) (sheet : Sheet) (active : String → Bool) : Element :=
  .ofSheet sheet s.declarations fun hook => active hook.text

variable {scopes : List Scope}

theorem consistent_sheets (hb : ∀ s ∈ scopes, r.Below s) :
    Consistent ((scopes.map (·.sheet)).flatMap (·.defaults)) := by
  intro d hd d' hd' he
  rw [List.flatMap_map, List.mem_flatMap] at hd hd'
  obtain ⟨s, hs, hd⟩ := hd
  obtain ⟨t, ht, hd'⟩ := hd'
  exact (hb s hs).defaults_agree (hb t ht) hd hd' he

/-- The `*` blocks merged have no other declaration of a property that is in
the block of a scope. -/
theorem mem_defaults_merged (hb : ∀ s ∈ scopes, r.Below s) (hs : s ∈ scopes) {d : Declaration}
    (hp : d.property ∈ s.sheet.defaults.map (·.property)) :
    d ∈ (mergeAll (scopes.map (·.sheet))).defaults ↔ d ∈ s.sheet.defaults := by
  rw [Sheet.mem_defaults_mergeAll (consistent_sheets hb), List.flatMap_map, List.mem_flatMap]
  refine ⟨?_, fun hd => ⟨s, hs, hd⟩⟩
  rintro ⟨t, ht, hd⟩
  obtain ⟨d', hd', he⟩ := List.mem_map.1 hp
  exact (hb s hs).defaults_agree (hb t ht) hd' hd he ▸ hd'

/-- What the rules of the merged sheet declare while hooks are active. -/
theorem mem_active_merged {d : Declaration} :
    d ∈ ((mergeAll (scopes.map (·.sheet))).rules.filter fun rule =>
        active rule.hook.text).flatMap (·.declarations) ↔
      ∃ t ∈ scopes, d ∈ t.activeDeclarations active := by
  simp only [activeDeclarations, List.mem_flatMap, List.mem_filter, Sheet.mem_rules_mergeAll,
    List.mem_map]
  constructor
  · rintro ⟨rule, ⟨⟨_, ⟨t, ht, rfl⟩, hrule⟩, ha⟩, hd⟩
    exact ⟨t, ht, rule, ⟨hrule, ha⟩, hd⟩
  · rintro ⟨t, ht, rule, ⟨hrule, ha⟩, hd⟩
    exact ⟨rule, ⟨⟨_, ⟨t, ht, rfl⟩, hrule⟩, ha⟩, hd⟩

/-- A rule of another scope declares a property of a scope's `*` block only if
a rule of this scope does. -/
theorem mem_active_merged_iff (hb : ∀ s ∈ scopes, r.Below s) (hids : HookIdsDiffer scopes)
    (hs : s ∈ scopes) {d : Declaration} (hp : d.property ∈ s.sheet.defaults.map (·.property)) :
    d ∈ ((mergeAll (scopes.map (·.sheet))).rules.filter fun rule =>
        active rule.hook.text).flatMap (·.declarations) ↔
      d ∈ s.activeDeclarations active := by
  rw [mem_active_merged]
  refine ⟨?_, fun hd => ⟨s, hs, hd⟩⟩
  rintro ⟨t, ht, hd⟩
  obtain ⟨e', he', ha, hd'⟩ := (mem_activeDeclarations (hb t ht).sound).1 hd
  obtain ⟨on', hprop'⟩ := property_of_mem_whileActive hd'
  obtain ⟨d₀, hd₀, heq⟩ := List.mem_map.1 hp
  -- The property is one of a pair in both scopes: were it one of the outermost
  -- level's nodes here, it would be so there.
  rcases (hb s hs).mem_defaults.1 hd₀ with ⟨e, he, hd₀⟩ | hd₀
  · obtain ⟨on, hprop⟩ := property_of_mem_atRest hd₀
    have hid : e.id = e'.id := (Toggle.property_inj.1 (hprop.symm.trans (heq.trans hprop'))).1
    have htext := hids s hs t ht e he e' he' hid
    exact (mem_activeDeclarations (hb s hs).sound).2 ⟨e, he, htext ▸ ha, hid ▸ hd'⟩
  · exact absurd (heq ▸ activeDeclarations_pairNames (hb t ht).sound hd)
      ((hb t ht).not_mem_pairNames hd₀)

/-- **An element has the same for every property of its scope** under all sheets
merged as under the scope's own. -/
theorem lookup_merged (hb : ∀ s ∈ scopes, r.Below s) (hids : HookIdsDiffer scopes) (hs : s ∈ scopes)
    {p : String} (hp : p ∈ s.declared.map (·.property)) :
    (s.element active).declared.lookup p =
      (s.elementUnder (mergeAll (scopes.map (·.sheet))) active).declared.lookup p := by
  have hsound := (hb s hs).sound
  rw [declared_eq hsound, List.map_append, List.mem_append] at hp
  rw [lookup_element, elementUnder, Element.lookup_ofSheet]
  -- What stands inline wins over every sheet.
  by_cases hinline : p ∈ s.declarations.map (·.property)
  · obtain ⟨d, hd, rfl⟩ := List.mem_map.1 hinline
    rw [valueIn_of_mem hsound.nodup_declarations hd, Option.some_or, Option.some_or]
  · have hdefault := hp.resolve_right hinline
    have hdefaults : (s.sheet.defaults.map (·.property)).Nodup := by
      rw [hsound.sheet_eq]
      exact hsound.nodup_defaults
    have hrest := valueIn_congr hdefaults fun d he =>
      mem_defaults_merged hb hs (d := d) (he ▸ hdefault)
    have hactive := valueIn_congr (@nodup_activeDeclarations s active hsound) fun d he =>
      mem_active_merged_iff hb hids hs (d := d) (he ▸ hdefault)
    rw [hrest, hactive]

/-- **Sheets of scopes below one outermost scope compose.** Where ids tell the
hooks of all scopes apart, merging the sheets in any order and with any
repetition changes no toggle pair of any of the scopes. -/
theorem value?_merged (hr : root definitions = .ok r) (hscopes : ∀ s ∈ scopes, r.Encloses s)
    (hids : HookIdsDiffer scopes) (hs : s ∈ scopes) (active : String → Bool) {name id : String}
    (hname : s.toggle? name = some id) (on : Bool) :
    (s.elementUnder (mergeAll (scopes.map (·.sheet))) active).value? (Toggle.property id on) =
      (s.element active).value? (Toggle.property id on) := by
  have hreach := (hscopes s hs).reachable (.root hr)
  have hb : ∀ s ∈ scopes, r.Below s := fun s hs => below_of_encloses hr (hscopes s hs)
  obtain ⟨c, hlookup, htoggle⟩ := Option.bind_eq_some_iff.1 hname
  obtain ⟨k, hk, rfl⟩ := Option.map_eq_some_iff.1 htoggle
  have hdeclared := (hreach.listed.toggles c (lookup?_some hreach.sound hlookup) k hk).declared on
  have hagree := @Element.computed?_congr (s.element active) _ [] _
    (fun _ => lookup_merged hb hids hs) (fun _ _ _ => hreach.asked_declared) _ hdeclared
  rw [Element.value?, Element.value?, hagree]

/-- Another use of the names and hooks of `shadeDefinitions`. -/
def haloDefinitions : Definitions :=
  [("dim", .and [.leaf "lit", .leaf ".dim &"]), ("glow", .or [.leaf "dim", .leaf "&:focus"])]

theorem value?_merged_halo : ∃ r a b c id, root litDefinitions = .ok r ∧
    r.nest shadeDefinitions = .ok a ∧ r.nest haloDefinitions = .ok b ∧
    a.nest haloDefinitions = .ok c ∧ a.toggle? "dim" = some id ∧
    ∀ active on,
      (a.elementUnder (mergeAll [b.sheet, c.sheet, a.sheet, b.sheet]) active).value?
          (Toggle.property id on) =
        (a.element active).value? (Toggle.property id on) := by
  have hany : ((root litDefinitions).toOption.any fun r =>
      (r.nest shadeDefinitions).toOption.any fun a => (r.nest haloDefinitions).toOption.any fun b =>
        (a.nest haloDefinitions).toOption.any fun c =>
          decide ((a.toggle? "dim").isSome = true ∧ HookIdsDiffer [b, c, a, b])) = true := by
    decide +kernel
  obtain ⟨r, hr, hany⟩ := exists_of_any hany
  obtain ⟨a, ha, hany⟩ := exists_of_any hany
  obtain ⟨b, hb, hany⟩ := exists_of_any hany
  obtain ⟨c, hc, hany⟩ := exists_of_any hany
  obtain ⟨hsome, hids⟩ := of_decide_eq_true hany
  obtain ⟨id, hid⟩ := Option.isSome_iff_exists.1 hsome
  have hscopes : ∀ s ∈ [b, c, a, b], r.Encloses s := by
    have hbelow : r.Encloses a ∧ r.Encloses b := ⟨.nest .refl ha, .nest .refl hb⟩
    simp [hbelow.1, hbelow.2, hbelow.1.nest hc]
  exact ⟨r, a, b, c, id, hr, ha, hb, hc, hid, fun active on =>
    value?_merged hr hscopes hids (by simp) active hid on⟩

end Scope

end VarLogic
