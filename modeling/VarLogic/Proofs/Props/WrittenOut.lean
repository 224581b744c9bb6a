/-
Expansions written out. A prop that expands to several properties may as well be
written as several props, each with the same text in front of its colon. They are
style props as it is (`isStyleKey_rename`), so they set what it sets, in the same
order (`settings_writtenOut`), and the same is forwarded (`forwarded_writtenOut`).
A property without a name cannot be written so: what has nothing behind its colon
is no style prop.
-/
import VarLogic.Proofs.Props.Routing

namespace VarLogic.Props

open Json (Value)

/-! ## Expansions -/

/-- Every property that a prop expands to has a name. -/
def Expansion.NamesProperties (expansion : Expansion) : Prop :=
  ∀ prop value, prop ≠ "" → ∀ o ∈ expansion prop value, o.1 ≠ ""

theorem identity_namesProperties : Expansion.NamesProperties identity := by
  intro prop value hprop o ho
  obtain rfl := List.mem_singleton.1 ho
  exact hprop

/-- Props stand for properties with names, if the aliases say so. -/
theorem Aliases.namesProperties_expand {aliases : Aliases}
    (h : ∀ prop properties, aliases.entries.lookup prop = some properties → "" ∉ properties) :
    Expansion.NamesProperties aliases.expand := by
  intro prop value hprop o ho
  unfold expand at ho
  cases hl : aliases.entries.lookup prop with
  | none =>
    rw [hl] at ho
    exact identity_namesProperties prop value hprop o ho
  | some properties =>
    rw [hl] at ho
    obtain ⟨p, hp, rfl⟩ := List.mem_map.1 ho
    intro hempty
    exact h prop properties hl (hempty ▸ hp)

/-! ## Props -/

namespace Styler

variable {styler : Styler} {s : Scope}

/-- The same styler without an expansion. -/
def plain (styler : Styler) : Styler := { styler with expansion := identity }

/-- A style prop as one prop for every property it expands to; any other prop
as it is. -/
def writtenOut (styler : Styler) (s : Scope) (prop : String × Value) : List (String × Value) :=
  match splitKey? prop.1 with
  | none => [prop]
  | some (first, name) =>
    if IsStyleKey s prop.1 then
      (styler.expansion name prop.2).map fun (property, v) => (first ++ ":" ++ property, v)
    else [prop]

/-! ## One prop -/

theorem writtenOut_of_not_isStyleKey {prop : String × Value} (h : ¬ IsStyleKey s prop.1) :
    styler.writtenOut s prop = [prop] := by
  unfold writtenOut
  cases splitKey? prop.1 with
  | none => rfl
  | some parts => exact if_neg h

theorem writtenOut_of_isStyleKey {prop : String × Value} {first name : String}
    (hcut : Cut prop.1 first name) (h : IsStyleKey s prop.1) :
    styler.writtenOut s prop =
      (styler.expansion name prop.2).map fun (property, v) => (first ++ ":" ++ property, v) := by
  rw [writtenOut, splitKey?_eq_some.2 hcut]
  exact if_pos h

/-- A style key with another name behind its colon is one as well. -/
theorem isStyleKey_rename {key first name property : String} (hcut : Cut key first name)
    (h : IsStyleKey s key) (hp : property ≠ "") :
    Cut (first ++ ":" ++ property) first property ∧ IsStyleKey s (first ++ ":" ++ property) := by
  obtain ⟨first', name', hcut', hfirst, -⟩ := h
  obtain ⟨rfl, rfl⟩ := hcut.unique hcut'
  have hrename : Cut (first ++ ":" ++ property) first property := ⟨rfl, hcut.colon⟩
  exact ⟨hrename, first, property, hrename, hfirst, hp⟩

/-- Outputs set what each of them sets. -/
theorem ofOutputs_eq_flatMap (condition : Option String) (outputs : List (String × Value)) :
    Setting.ofOutputs condition outputs =
      outputs.flatMap fun o => Setting.ofOutputs condition [o] := by
  induction outputs with
  | nil => rfl
  | cons o outputs ih =>
    rw [List.flatMap_cons, ← ih, Setting.ofOutputs, Setting.ofOutputs, Setting.ofOutputs,
      ← List.filterMap_append, List.singleton_append]

/-- Written out, a prop sets what it sets by its expansion. -/
theorem settingsOf_writtenOut (h : styler.expansion.NamesProperties) (prop : String × Value) :
    (styler.writtenOut s prop).flatMap (styler.plain.settingsOf s) = styler.settingsOf s prop := by
  by_cases hs : IsStyleKey s prop.1
  · obtain ⟨first, name, hcut, -, hname⟩ := id hs
    rw [writtenOut_of_isStyleKey hcut hs, settingsOf_of_isStyleKey hcut hs, ofOutputs_eq_flatMap,
      List.flatMap_map]
    refine List.flatMap_congr fun o ho => ?_
    obtain ⟨hcut', hs'⟩ := isStyleKey_rename hcut hs (h name prop.2 hname o ho)
    rw [settingsOf_of_isStyleKey hcut' hs']
    rfl
  · have hforward : route s prop.1 = .forward := not_not.1 fun hr => hs (route_ne_forward.1 hr)
    simp [writtenOut_of_not_isStyleKey hs, settingsOf, hforward]

/-- Written out, a prop is forwarded if it was. -/
theorem filter_writtenOut (h : styler.expansion.NamesProperties) (prop : String × Value) :
    (styler.writtenOut s prop).filter (route s ·.1 = .forward) =
      [prop].filter (route s ·.1 = .forward) := by
  by_cases hs : IsStyleKey s prop.1
  · obtain ⟨first, name, hcut, -, hname⟩ := id hs
    have hnone : ∀ q ∈ styler.writtenOut s prop, route s q.1 ≠ .forward := by
      rw [writtenOut_of_isStyleKey hcut hs]
      intro q hq
      obtain ⟨o, ho, rfl⟩ := List.mem_map.1 hq
      exact route_ne_forward.2 (isStyleKey_rename hcut hs (h name prop.2 hname o ho)).2
    rw [List.filter_eq_nil_iff.2 fun q hq => by simpa using hnone q hq]
    simp [route_ne_forward.2 hs]
  · rw [writtenOut_of_not_isStyleKey hs]

/-! ## All props -/

theorem settings_writtenOut (h : styler.expansion.NamesProperties) (props : List (String × Value)) :
    styler.plain.settings s (props.flatMap (styler.writtenOut s)) = styler.settings s props := by
  rw [settings, List.flatMap_assoc, settings]
  exact List.flatMap_congr fun prop _ => settingsOf_writtenOut h prop

theorem forwarded_writtenOut (h : styler.expansion.NamesProperties)
    (props : List (String × Value)) :
    (props.flatMap (styler.writtenOut s)).filter (route s ·.1 = .forward) =
      props.filter (route s ·.1 = .forward) := by
  induction props with
  | nil => rfl
  | cons prop props ih =>
    rw [List.flatMap_cons, List.filter_append, filter_writtenOut h, ih, ← List.filter_append,
      List.singleton_append]

/-- **An expansion is the same as writing it out.** Let no prop expand to a
property without a name, as is so where aliases stand for properties with names.
Write every style prop as one prop for each property it expands to, with the same
prefix, at its place and in the order of the expansion, and leave all other props
as they are. Then the same style is made without the expansion, and the same is
forwarded. -/
theorem resolve_writtenOut (styler : Styler) (s : Scope) (props : List (String × Value)) :
    (styler.expansion.NamesProperties →
      ∃ r, styler.resolve s props = .ok r ∧
        styler.plain.resolve s (props.flatMap (styler.writtenOut s)) = .ok r) ∧
    ∀ aliases : Aliases,
      (∀ prop properties, aliases.entries.lookup prop = some properties → "" ∉ properties) →
        Expansion.NamesProperties aliases.expand := by
  refine ⟨fun h => ⟨_, resolve_eq props, ?_⟩, fun aliases => Aliases.namesProperties_expand⟩
  have hstyle : styler.plain.styleOf s (props.flatMap (styler.writtenOut s)) =
      styler.styleOf s props := by
    rw [styleOf, applied, settings_writtenOut h]
    rfl
  rw [resolve_eq, hstyle, filter_ordered, forwarded_writtenOut h, filter_ordered]

/-- A prop for one side twice, one for nothing, and one for a property with a
colon in its name. -/
def looseAliases : Aliases where
  entries := [("pad", ["padding-left", "padding-right", "padding-left"]), ("drop", []),
    ("gap", ["--gap:x"])]

/-- Style props that expand, among props that are none. -/
def looseProps : List (String × Value) :=
  [("lit:pad", .string "1px"), ("initial:drop", .string "2px"), ("id", .string "nav"),
    ("dim:gap", .string "3px"), ("initial:", .null), ("gloom:pad", .string "4px")]

theorem resolve_writtenOut_loose :
    ∃ parent s r, Scope.root Scope.litDefinitions = .ok parent ∧
      parent.nest Scope.shadeDefinitions = .ok s ∧
        ({ expansion := looseAliases.expand } : Styler).resolve s looseProps = .ok r ∧
          ∃ props, ({} : Styler).resolve s props = .ok r ∧
            props.map (·.1) = ["lit:padding-left", "lit:padding-right", "lit:padding-left", "id",
              "dim:--gap:x", "initial:", "gloom:pad"] := by
  have hany : ((Scope.root Scope.litDefinitions).toOption.bind fun parent =>
      (parent.nest Scope.shadeDefinitions).toOption).any (fun s => decide
        ((looseProps.flatMap
            (({ expansion := looseAliases.expand } : Styler).writtenOut s)).map (·.1) =
          ["lit:padding-left", "lit:padding-right", "lit:padding-left", "id", "dim:--gap:x",
            "initial:", "gloom:pad"])) = true := by
    decide +kernel
  obtain ⟨parent, s, hparent, hs, hp⟩ := Scope.exists_nested_of_any hany
  have hnames : ∀ prop properties, looseAliases.entries.lookup prop = some properties →
      "" ∉ properties := by
    intro prop properties hl
    obtain ⟨front, back, he, -⟩ := List.lookup_eq_some_iff.1 hl
    have hall : ∀ entry ∈ looseAliases.entries, "" ∉ entry.2 := by decide
    exact hall (prop, properties) (by rw [he]; simp)
  obtain ⟨hresolve, hexpand⟩ :=
    resolve_writtenOut { expansion := looseAliases.expand } s looseProps
  obtain ⟨r, hr, hplain⟩ := hresolve (hexpand looseAliases hnames)
  exact ⟨parent, s, r, hparent, hs, hr, _, hplain, of_decide_eq_true hp⟩

end Styler

end VarLogic.Props
