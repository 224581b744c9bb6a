/-
Toggles on an element under the sheet of a scope. The pair of a hook is
declared in the `*` block and, where the hook is active, once more in its
rule; a composite node is declared once, in the `*` block or inline. So every
toggle is on or off as its condition holds: hooks because of their rules, and
conditions because their networks lie above hooks and earlier conditions.
-/
import VarLogic.Proofs.Element.Declared
import VarLogic.Proofs.Scope.Sheet
import Mathlib.Data.List.Flatten

namespace VarLogic

namespace Scope

/-- An element that uses a scope, where the hooks of the texts in `active`
match: the sheet applies to it, and the declarations stand inline. -/
def element (s : Scope) (active : String → Bool) : Element :=
  .ofSheet s.sheet s.declarations fun hook => active hook.text

/-- Whether an id is that of an active hook. -/
def isOn (s : Scope) (active : String → Bool) (id : String) : Bool :=
  s.hooks.any fun h => h.id = id && active h.hook.text

variable {s : Scope} {active : String → Bool}

/-- What the rules of the active hooks declare. -/
def activeDeclarations (s : Scope) (active : String → Bool) : List Declaration :=
  (s.sheet.rules.filter fun r => active r.hook.text).flatMap (·.declarations)

/-- An element under the sheet of a scope, where the hooks of the texts in
`active` match, with some inline declarations. -/
def elementWith (s : Scope) (active : String → Bool) (inline : List Declaration) : Element :=
  .ofSheet s.sheet inline fun hook => active hook.text

theorem lookup_elementWith (inline : List Declaration) (p : String) :
    (s.elementWith active inline).declared.lookup p =
      (valueIn inline p).or
        ((valueIn (s.activeDeclarations active) p).or (valueIn s.sheet.defaults p)) :=
  Element.lookup_ofSheet s.sheet inline _ p

theorem lookup_element (p : String) :
    (s.element active).declared.lookup p =
      (valueIn s.declarations p).or
        ((valueIn (s.activeDeclarations active) p).or (valueIn s.sheet.defaults p)) :=
  lookup_elementWith s.declarations p

/-- What an element has is declared at rest, inline or in the rule of an active
hook. -/
theorem mem_of_lookup (hs : s.Sound) {p raw : String}
    (h : (s.element active).declared.lookup p = some raw) :
    Declaration.mk p raw ∈ Level.defaultsOf s.levels ++ s.declarations ∨
      Declaration.mk p raw ∈ s.activeDeclarations active := by
  rw [lookup_element, Option.or_eq_some_iff, hs.sheet_eq] at h
  rcases h with hinline | ⟨-, h⟩
  · exact .inl (List.mem_append_right _ (mem_of_valueIn hinline))
  rcases Option.or_eq_some_iff.1 h with hactive | ⟨-, hrest⟩
  · exact .inr (mem_of_valueIn hactive)
  · exact .inl (List.mem_append_left _ (mem_of_valueIn hrest))

theorem mem_activeDeclarations (hs : s.Sound) {d : Declaration} :
    d ∈ s.activeDeclarations active ↔
      ∃ h ∈ s.hooks, active h.hook.text = true ∧ d ∈ Sheet.whileActive h.id := by
  simp only [activeDeclarations, List.mem_flatMap, List.mem_filter, hs.perm_rules.mem_iff,
    List.mem_map]
  constructor
  · rintro ⟨_, ⟨⟨h, hh, rfl⟩, ha⟩, hd⟩
    exact ⟨h, hh, ha, hd⟩
  · rintro ⟨h, hh, ha, hd⟩
    exact ⟨_, ⟨⟨h, hh, rfl⟩, ha⟩, hd⟩

/-- The names of the hooks' pairs. -/
def pairNames (s : Scope) : List String :=
  (s.hooks.flatMap (Sheet.atRest ·.id)).map (·.property)

theorem mem_pairNames {p : String} :
    p ∈ s.pairNames ↔ ∃ h ∈ s.hooks, ∃ on, p = Toggle.property h.id on := by
  simp only [pairNames, Sheet.atRest, List.map_flatMap, List.mem_flatMap, List.map_cons,
    List.map_nil, List.mem_cons, List.not_mem_nil, or_false, Bool.exists_bool]

theorem property_mem_pairNames {h : HookEntry} (hh : h ∈ s.hooks) (on : Bool) :
    Toggle.property h.id on ∈ s.pairNames := mem_pairNames.2 ⟨h, hh, on, rfl⟩

theorem mem_pairNames_of_atRest {h : HookEntry} (hh : h ∈ s.hooks) {d : Declaration}
    (hd : d ∈ Sheet.atRest h.id) : d.property ∈ s.pairNames :=
  List.mem_map_of_mem (List.mem_flatMap.2 ⟨h, hh, hd⟩)

theorem property_of_mem_whileActive {id : String} {d : Declaration} (hd : d ∈ Sheet.whileActive id) :
    ∃ on, d.property = Toggle.property id on := by
  simp only [Sheet.whileActive, List.mem_cons, List.not_mem_nil, or_false] at hd
  rcases hd with rfl | rfl <;> exact ⟨_, rfl⟩

theorem property_of_mem_atRest {id : String} {d : Declaration} (hd : d ∈ Sheet.atRest id) :
    ∃ on, d.property = Toggle.property id on := by
  simp only [Sheet.atRest, List.mem_cons, List.not_mem_nil, or_false] at hd
  rcases hd with rfl | rfl <;> exact ⟨_, rfl⟩

theorem activeDeclarations_pairNames (hs : s.Sound) {d : Declaration}
    (hd : d ∈ s.activeDeclarations active) : d.property ∈ s.pairNames := by
  obtain ⟨h, hh, -, hd⟩ := (mem_activeDeclarations hs).1 hd
  obtain ⟨on, he⟩ := property_of_mem_whileActive hd
  exact he ▸ property_mem_pairNames hh on

theorem atRest_mem_defaultsOf {levels : List Level} {h : HookEntry}
    (hh : h ∈ levels.flatMap (·.hooks)) {d : Declaration} (hd : d ∈ Sheet.atRest h.id) :
    d ∈ Level.defaultsOf levels := by
  induction levels with
  | nil => simp at hh
  | cons level outer ih =>
    rw [List.flatMap_cons, List.mem_append] at hh
    rw [Level.defaultsOf, List.mem_append, Level.ownDefaults, List.mem_append]
    rcases hh with hh | hh
    · exact .inr (.inl (List.mem_flatMap.2 ⟨h, hh, hd⟩))
    · exact .inl (ih hh)

theorem pairNames_not_inline (hs : s.Sound) {p : String} (hp : p ∈ s.pairNames) :
    p ∉ s.declarations.map (·.property) := fun hm => by
  obtain ⟨d, hd, rfl⟩ := List.mem_map.1 hp
  obtain ⟨h, hh, hd⟩ := List.mem_flatMap.1 hd
  have hn := hs.nodup_properties
  rw [List.map_append, List.nodup_append] at hn
  exact hn.2.2 _ (List.mem_map_of_mem (atRest_mem_defaultsOf hh hd)) _ hm rfl

theorem nodup_activeDeclarations (hs : s.Sound) :
    ((s.activeDeclarations active).map (·.property)).Nodup := by
  have hall : ((s.sheet.rules.flatMap (·.declarations)).map (·.property)).Nodup := by
    have hp := ((hs.perm_rules.flatMap_right (·.declarations)).map (·.property)).nodup_iff
    have hn := hs.nodup_declared
    rw [List.map_append, List.map_flatMap] at hn
    rw [List.flatMap_map] at hp
    refine hp.2 ?_
    rw [List.map_flatMap]
    exact hn.of_append_left
  exact (((List.filter_sublist).flatMap _).map _).nodup hall

/-- A composite node has what is declared for it. -/
theorem lookup_composite (hs : s.Sound) {c : NamedCondition} (hc : c ∈ s.history) {d : Declaration}
    (hd : d ∈ c.declarations) : (s.element active).declared.lookup d.property = some d.value := by
  have hn := hs.nodup_properties
  have hmem : d ∈ Level.defaultsOf s.levels ++ s.declarations :=
    s.perm_declared.mem_iff.2 (List.mem_append_right _ (List.mem_flatMap.2 ⟨c, hc, hd⟩))
  have hpair : d.property ∉ s.pairNames := fun hp => by
    have hn := hs.nodup_declared
    rw [List.map_append, List.nodup_append] at hn
    exact hn.2.2 _ hp _ (List.mem_map_of_mem (List.mem_flatMap.2 ⟨c, hc, hd⟩)) rfl
  have hactive : valueIn (s.activeDeclarations active) d.property = none :=
    valueIn_eq_none fun hm => by
      obtain ⟨d', hd', he⟩ := List.mem_map.1 hm
      exact hpair (he ▸ activeDeclarations_pairNames hs hd')
  rw [lookup_element, hactive, Option.none_or, ← valueIn_append, hs.sheet_eq]
  exact valueIn_of_mem hn hmem

/-- The pair of a hook has what its rule says where the hook is active, and is
at rest elsewhere. -/
theorem lookup_hook (hs : s.Sound) {h : HookEntry} (hh : h ∈ s.hooks) {d : Declaration}
    (hd : d ∈ if active h.hook.text then Sheet.whileActive h.id else Sheet.atRest h.id) :
    (s.element active).declared.lookup d.property = some d.value := by
  have hpair : d.property ∈ s.pairNames := by
    split at hd
    · obtain ⟨on, he⟩ := property_of_mem_whileActive hd
      exact he ▸ property_mem_pairNames hh on
    · exact mem_pairNames_of_atRest hh hd
  rw [lookup_element, valueIn_eq_none (pairNames_not_inline hs hpair), Option.none_or]
  split at hd
  · rename_i ha
    rw [valueIn_of_mem (nodup_activeDeclarations hs) ((mem_activeDeclarations hs).2 ⟨h, hh, ha, hd⟩)]
    rfl
  · rename_i ha
    rw [valueIn_eq_none fun hm => ?_, Option.none_or, hs.sheet_eq,
      valueIn_of_mem hs.nodup_defaults (atRest_mem_defaultsOf hh hd)]
    -- Another hook's rule cannot be about this pair.
    obtain ⟨d', hd', he⟩ := List.mem_map.1 hm
    obtain ⟨h', hh', ha', hd'⟩ := (mem_activeDeclarations hs).1 hd'
    obtain ⟨on', he'⟩ := property_of_mem_whileActive hd'
    obtain ⟨on, hon⟩ := property_of_mem_atRest hd
    have hid : h'.id = h.id := (Toggle.property_inj.1 (he'.symm.trans (he.trans hon))).1
    have : h' = h := List.inj_on_of_nodup_map hs.nodup_hookIds hh' hh hid
    exact ha (this ▸ ha')

theorem lookup_pair (hs : s.Sound) {h : HookEntry} (hh : h ∈ s.hooks) (on : Bool) :
    (s.element active).declared.lookup (Toggle.property h.id on) =
      some (if active h.hook.text = on then "initial" else "") := by
  have hd : Declaration.mk (Toggle.property h.id on)
      (if active h.hook.text = on then "initial" else "") ∈
        if active h.hook.text then Sheet.whileActive h.id else Sheet.atRest h.id := by
    cases active h.hook.text <;> cases on <;> simp [Sheet.whileActive, Sheet.atRest]
  exact lookup_hook hs hh hd

/-! ## Settled toggles -/

/-- **The pair of a hook is on where the hook is active.** -/
theorem settled_hook (hs : s.Sound) {h : HookEntry} (hh : h ∈ s.hooks) :
    (s.element active).Settled s.pairNames h.id (active h.hook.text) := by
  refine (Element.settled_pair ?_ ?_).mono fun p hp => ?_
  · rw [lookup_pair hs hh, if_pos rfl]
  · rw [lookup_pair hs hh, if_neg (by simp)]
  · simp only [List.mem_cons, List.not_mem_nil, or_false] at hp
    rcases hp with rfl | rfl <;> exact property_mem_pairNames hh _

end Scope

end VarLogic
