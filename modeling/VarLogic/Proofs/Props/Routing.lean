/-
Which props set properties, and which are forwarded. How a prop is routed can be
told from its key (`route_ne_forward`), and no name in sight can be mistaken
(`cut_of_mem_names`). Style props make the style by themselves, and all
other props are forwarded as they are (`resolve_routes`).
-/
import VarLogic.Proofs.Props.Resolve
import VarLogic.Proofs.Scope.Names
import VarLogic.Props.Keys

namespace VarLogic

open Json (Value)

namespace Props

/-! ## Keys -/

theorem contains_iff {s : Scope} {name : String} : s.contains name = true ↔ name ∈ s.names :=
  Scope.mem_names.symm

theorem isInitial_iff {key : String} : isInitial key = true ↔ StartsInitial key := by
  simp only [StartsInitial, ← splitKey?_eq_some, isInitial]
  cases splitKey? key with
  | none => simp
  | some parts => simp [Prod.ext_iff]

/-- **What is not forwarded can be told from the key.** -/
theorem route_ne_forward {s : Scope} {key : String} : route s key ≠ .forward ↔ IsStyleKey s key := by
  simp only [IsStyleKey, ← splitKey?_eq_some, ← contains_iff, route]
  cases splitKey? key with
  | none => simp
  | some parts => grind

/-! ## Names -/

/-- A name in sight is not taken for `initial`, and no colon cuts it. -/
theorem cut_of_mem_names {s : Scope} (hs : s.Reachable) {name : String} (h : name ∈ s.names) :
    name ≠ initialPrefix ∧ ∀ prop, Cut (name ++ ":" ++ prop) name prop := by
  obtain ⟨hplain, hreserved⟩ := Definitions.plain_of_checkName (hs.checkName name h)
  constructor
  · intro heq
    exact hreserved (by simp [heq, initialPrefix, Definitions.reservedNames])
  · intro prop
    constructor
    · rfl
    · intro hcolon
      exact absurd (hplain ':' hcolon) (by decide)

/-- So behind a name in sight every property is set while its condition holds. -/
theorem route_of_mem_names {s : Scope} (hs : s.Reachable) {name : String} (h : name ∈ s.names)
    {prop : String} (hp : prop ≠ "") : route s (name ++ ":" ++ prop) = .conditional name prop := by
  obtain ⟨hinitial, hcut⟩ := cut_of_mem_names hs h
  exact route_eq_conditional.2 ⟨splitKey?_eq_some.2 (hcut prop), hp, hinitial, contains_iff.2 h⟩

namespace Styler

variable {styler : Styler} {s : Scope}

/-! ## Forwarding -/

theorem settings_filter_route (props : List (String × Value)) :
    styler.settings s (props.filter (route s ·.1 ≠ .forward)) = styler.settings s props := by
  induction props with
  | nil => rfl
  | cons prop props ih =>
    rw [List.filter_cons, settings, settings, List.flatMap_cons, ← settings, ← settings]
    by_cases hr : route s prop.1 = .forward
    · rw [if_neg (by simp [hr]), ih, settingsOf, hr, List.nil_append]
    · rw [if_pos (by simp [hr]), settings, List.flatMap_cons, ← settings, ih]

/-- The style props make the style. -/
theorem styleOf_filter (props : List (String × Value)) :
    styler.styleOf s (props.filter (IsStyleKey s ·.1)) = styler.styleOf s props := by
  have hfilter : props.filter (IsStyleKey s ·.1) = props.filter (route s ·.1 ≠ .forward) :=
    List.filter_congr fun p _ => by simp [route_ne_forward]
  rw [styleOf, styleOf, applied, applied, hfilter, settings_filter_route]

/-- The other props are forwarded: those behind `initial:` first, all in their
order. -/
theorem ordered_filter_forward (props : List (String × Value)) :
    (ordered props).filter (route s ·.1 = .forward) =
      (props.filter fun p => ¬ IsStyleKey s p.1 ∧ StartsInitial p.1) ++
        (props.filter fun p => ¬ IsStyleKey s p.1 ∧ ¬ StartsInitial p.1) := by
  rw [ordered, List.filter_append, List.filter_filter, List.filter_filter]
  congr 1
  · refine List.filter_congr fun p _ => ?_
    simp [← route_ne_forward, ← isInitial_iff]
  · refine List.filter_congr fun p _ => ?_
    simp [← route_ne_forward, ← isInitial_iff]

/-- What a style prop sets, and while which condition, can be told from the cut
of its key. -/
theorem settingsOf_of_isStyleKey {prop : String × Value} {first name : String}
    (hcut : Cut prop.1 first name) (h : IsStyleKey s prop.1) :
    styler.settingsOf s prop =
      Setting.ofOutputs (if first = initialPrefix then none else some first)
        (styler.expansion name prop.2) := by
  have hsplit := splitKey?_eq_some.2 hcut
  unfold settingsOf
  cases hr : route s prop.1 with
  | forward => exact absurd hr (route_ne_forward.2 h)
  | initial name' =>
    obtain ⟨hsplit', -⟩ := route_eq_initial.1 hr
    obtain ⟨rfl, rfl⟩ := Prod.mk.inj (Option.some.inj (hsplit.symm.trans hsplit'))
    rw [if_pos rfl]
  | conditional condition name' =>
    obtain ⟨hsplit', -, hinitial, -⟩ := route_eq_conditional.1 hr
    obtain ⟨rfl, rfl⟩ := Prod.mk.inj (Option.some.inj (hsplit.symm.trans hsplit'))
    rw [if_neg hinitial]

/-- A style prop sets what it expands to, where that has a CSS form. -/
theorem exists_mem_settingsOf {prop : String × Value} {first name : String}
    (hcut : Cut prop.1 first name) (hstyle : IsStyleKey s prop.1) {o : String × Value}
    (ho : o ∈ styler.expansion name prop.2) (hcss : (cssForm? o.1 o.2).isSome) :
    ∃ x ∈ styler.settingsOf s prop, x.property = o.1 := by
  obtain ⟨css, hcss⟩ := Option.isSome_iff_exists.1 hcss
  rw [settingsOf_of_isStyleKey hcut hstyle]
  refine ⟨⟨if first = initialPrefix then none else some first, o.1, css⟩, ?_, rfl⟩
  exact List.mem_filterMap.2 ⟨o, ho, by simp [hcss]⟩

/-- **How props are routed.** Resolving succeeds, whatever the props are. A prop
is a style prop if its key has a name behind its first colon, and before it
`initial` or a name in sight. The style props alone make the style, and each of
them sets what it expands to, where that has a CSS form. All other props are
forwarded as they are, as often as they occur: those behind `initial:` first,
and both groups in their order. And a name in sight is neither taken for
`initial` nor cut by a colon, so with it every property can be set. -/
theorem resolve_routes (hs : s.Reachable) (styler : Styler) (props : List (String × Value)) :
    (∃ r, styler.resolve s props = .ok r ∧
      r.forward = (props.filter fun p => ¬ IsStyleKey s p.1 ∧ StartsInitial p.1) ++
        (props.filter fun p => ¬ IsStyleKey s p.1 ∧ ¬ StartsInitial p.1) ∧
      styler.resolve s (props.filter (IsStyleKey s ·.1)) = .ok ⟨r.style, []⟩ ∧
      ∀ prop ∈ props, IsStyleKey s prop.1 → ∀ first name, Cut prop.1 first name →
        ∀ o ∈ styler.expansion name prop.2, (cssForm? o.1 o.2).isSome →
          (r.style.get? o.1).isSome) ∧
    (∀ key, route s key ≠ .forward ↔ IsStyleKey s key) ∧
    ∀ name ∈ s.names, name ≠ initialPrefix ∧ ∀ prop, Cut (name ++ ":" ++ prop) name prop ∧
      (prop ≠ "" → route s (name ++ ":" ++ prop) = .conditional name prop) := by
  refine ⟨⟨_, resolve_eq props, ordered_filter_forward props, ?_, ?_⟩,
    fun key => route_ne_forward, ?_⟩
  · have hnone : (props.filter (IsStyleKey s ·.1)).filter (route s ·.1 = .forward) = [] := by
      simp [List.filter_filter, ← route_ne_forward]
    rw [resolve_eq, styleOf_filter, filter_ordered, hnone]
    rfl
  · intro prop hprop hstyle first name hcut o ho hcss
    obtain ⟨x, hx, hproperty⟩ := exists_mem_settingsOf hcut hstyle ho hcss
    refine isSome_get?_styleOf.2 (.inr ⟨x, ?_, hproperty⟩)
    exact List.mem_append_right _ (List.mem_flatMap.2 ⟨prop, hprop, hx⟩)
  · intro name hname
    obtain ⟨hinitial, hcut⟩ := cut_of_mem_names hs hname
    exact ⟨hinitial, fun prop => ⟨hcut prop, route_of_mem_names hs hname⟩⟩

/-- Style props among props that only look like some. -/
def mixedProps : List (String × Value) :=
  [("id", .string "nav"), ("lit:color", .string "gold"), (":", .null), ("initial:", .string "kept"),
    ("dark:--a:b", .string "1"), ("gloom:color", .string "grey"), ("lit:", .null),
    ("initial:color", .boolean true), ("id", .string "nav")]

theorem resolve_routes_mixed :
    ∃ parent s r, Scope.root Scope.litDefinitions = .ok parent ∧
      parent.nest Scope.shadeDefinitions = .ok s ∧
        (({} : Styler).resolve s mixedProps = .ok r ∧ (r.style.get? "--a:b").isSome ∧
          r.forward.map (·.1) = ["initial:", "id", ":", "gloom:color", "lit:", "id"]) ∧
          route s "dim:width" = .conditional "dim" "width" := by
  have hany : ((Scope.root Scope.litDefinitions).toOption.bind fun parent =>
      (parent.nest Scope.shadeDefinitions).toOption).any (fun s => decide
        (((mixedProps.filter fun p => ¬ IsStyleKey s p.1 ∧ StartsInitial p.1) ++
            (mixedProps.filter fun p => ¬ IsStyleKey s p.1 ∧ ¬ StartsInitial p.1)).map (·.1) =
              ["initial:", "id", ":", "gloom:color", "lit:", "id"] ∧
          IsStyleKey s "dark:--a:b" ∧ "dim" ∈ s.names)) = true := by
    decide +kernel
  obtain ⟨parent, s, hparent, hs, hp⟩ := Scope.exists_nested_of_any hany
  obtain ⟨hforward, hstyle, hname⟩ := of_decide_eq_true hp
  obtain ⟨⟨r, hr, hf, -, hset⟩, -, hnames⟩ :=
    resolve_routes (.nest (.root hparent) hs) {} mixedProps
  refine ⟨parent, s, r, hparent, hs, ⟨hr, ?_, by rw [hf, hforward]⟩, ?_⟩
  · exact hset ("dark:--a:b", .string "1") (by simp [mixedProps]) hstyle "dark" "--a:b"
      ⟨rfl, by decide⟩ ("--a:b", .string "1") (by simp [identity]) rfl
  · exact ((hnames "dim" hname).2 "width").2 (by decide)

end Styler

end Props

end VarLogic
