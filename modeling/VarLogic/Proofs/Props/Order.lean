/-
The order of a resolved style. A setting without a condition keeps a property at
its place or puts it last, and a conditional one always puts it last
(`properties_put`). The settings with a condition come after the others, so the
properties without one stand in the order in which they are set first, and the
conditional ones behind them in the order in which they are set last
(`properties_applied`). The toggles in front of all stay where they are, as long
as nothing sets one of them (`styleOf_eq`).
-/
import VarLogic.Proofs.Props.Meaning
import Mathlib.Data.List.Dedup

namespace VarLogic.Props

open Json (Value)

/-! ## Settings -/

namespace Setting

/-- The properties that are set, each where it is set first. -/
def firstSet (xs : List Setting) : List String := (xs.map (·.property)).eraseDups

/-- The properties that are set, each where it is set last. -/
def lastSet (xs : List Setting) : List String := (xs.map (·.property)).dedup

theorem firstSet_concat (xs : List Setting) (x : Setting) :
    firstSet (xs ++ [x]) =
      if x.property ∈ firstSet xs then firstSet xs else firstSet xs ++ [x.property] := by
  simp only [firstSet, List.map_append, List.eraseDups_append, List.mem_eraseDups]
  generalize xs.map (·.property) = ps
  split
  · rename_i h
    simp [List.removeAll, h]
  · rename_i h
    simp [List.removeAll, h, List.eraseDups_cons]

/-- A setting in front of others puts its property only if no other one does. -/
theorem lastSet_cons (x : Setting) (xs : List Setting) :
    lastSet (x :: xs) = [x.property].filter (· ∉ xs.map (·.property)) ++ lastSet xs := by
  rw [lastSet, List.map_cons, List.filter_singleton]
  by_cases hm : x.property ∈ xs.map (·.property)
  · rw [List.dedup_cons_of_mem hm, decide_eq_false (not_not_intro hm)]
    rfl
  · rw [List.dedup_cons_of_notMem hm, decide_eq_true hm]
    rfl

end Setting

namespace Styler

variable {styler : Styler} {s : Scope}

/-- What is set unconditionally: by the default style, and then by the
`initial:` props. -/
def unconditional (styler : Styler) (s : Scope) (props : List (String × Value)) : List Setting :=
  styler.defaults ++ (styler.settings s props).filter (·.condition.isNone)

/-- What is set while a condition holds. -/
def conditional (styler : Styler) (s : Scope) (props : List (String × Value)) : List Setting :=
  (styler.settings s props).filter (·.condition.isSome)

theorem applied_eq_append (props : List (String × Value)) :
    styler.applied s props = styler.unconditional s props ++ styler.conditional s props := by
  rw [applied, unconditional, conditional, List.append_assoc]

theorem isNone_of_mem_unconditional {props : List (String × Value)} {x : Setting}
    (h : x ∈ styler.unconditional s props) : x.condition = none := by
  rcases List.mem_append.1 h with h | h
  · obtain ⟨d, -, rfl⟩ := List.mem_map.1 h
    rfl
  · simpa using (List.mem_filter.1 h).2

theorem isSome_of_mem_conditional {props : List (String × Value)} {x : Setting}
    (h : x ∈ styler.conditional s props) : x.condition.isSome :=
  (List.mem_filter.1 h).2

/-! ## Putting -/

/-- Where a setting puts its property. -/
theorem properties_put {style : InlineStyle} (h : style.properties.Nodup) (x : Setting) :
    (styler.put s style x).properties =
      if x.condition.isSome then style.properties.filter (· ≠ x.property) ++ [x.property]
      else if x.property ∈ style.properties then style.properties
      else style.properties ++ [x.property] := by
  unfold put
  cases hc : x.condition with
  | none => exact InlineStyle.properties_set style _ _
  | some c => exact InlineStyle.properties_setLast h _ _

/-- Settings without a condition put each property where it is set first. -/
theorem properties_foldl_put_unconditional {xs : List Setting} (hx : ∀ x ∈ xs, x.condition = none) :
    (xs.foldl (styler.put s) .empty).properties = Setting.firstSet xs := by
  -- On the last setting: whether it puts anything depends on those in front of it.
  induction xs using List.reverseRecOn with
  | nil => rfl
  | append_singleton xs x ih =>
    have hlast : x.condition = none := hx x (by simp)
    rw [List.foldl_concat, properties_put (nodup_foldl_put InlineStyle.nodup_empty xs), hlast, ih fun y hy => hx y (by simp [hy]),
      Setting.firstSet_concat]
    rfl

/-- Conditional settings take their properties out of a style, and put each
where it is set last. -/
theorem properties_foldl_put_conditional {xs : List Setting}
    (hx : ∀ x ∈ xs, x.condition.isSome) {style : InlineStyle} (h : style.properties.Nodup) :
    (xs.foldl (styler.put s) style).properties =
      style.properties.filter (· ∉ xs.map (·.property)) ++ Setting.lastSet xs := by
  -- On the first setting: what comes behind it may take its property out again.
  induction xs generalizing style with
  | nil => simp [Setting.lastSet]
  | cons x xs ih =>
    have hfirst : x.condition.isSome := hx x (by simp)
    have hrest : style.properties.filter (· ∉ (x :: xs).map (·.property)) =
        (style.properties.filter (· ≠ x.property)).filter (· ∉ xs.map (·.property)) := by
      rw [List.filter_filter]
      refine List.filter_congr fun q _ => ?_
      simp only [List.map_cons, List.mem_cons, not_or, Bool.decide_and]
      exact Bool.and_comm _ _
    rw [List.foldl_cons, ih (fun y hy => hx y (by simp [hy])) (nodup_put h x), properties_put h,
      if_pos hfirst, hrest, List.filter_append, Setting.lastSet_cons, List.append_assoc]

/-- The order of all that is set. -/
theorem properties_applied (props : List (String × Value)) :
    ((styler.applied s props).foldl (styler.put s) .empty).properties =
      (Setting.firstSet (styler.unconditional s props)).filter
          (· ∉ (styler.conditional s props).map (·.property)) ++
        Setting.lastSet (styler.conditional s props) := by
  rw [applied_eq_append, List.foldl_append,
    properties_foldl_put_conditional (fun x => isSome_of_mem_conditional)
      (nodup_foldl_put InlineStyle.nodup_empty _),
    properties_foldl_put_unconditional fun x => isNone_of_mem_unconditional]

/-! ## Toggles in front -/

/-- What stands in front stays there, as long as nothing sets it. -/
theorem put_append {front : List (String × String)} {x : Setting}
    (hx : x.property ∉ front.map (·.1)) (style : InlineStyle) :
    styler.put s ⟨front ++ style.entries⟩ x = ⟨front ++ (styler.put s style x).entries⟩ := by
  unfold put
  cases x.condition with
  | none => exact congrArg InlineStyle.mk (InlineStyle.setEntry_append hx _ _)
  | some c =>
    -- Neither the fallback nor the place of the property is sought in front.
    have hget : InlineStyle.get? ⟨front ++ style.entries⟩ x.property = style.get? x.property := by
      have hnone : front.lookup x.property = none := by
        rw [List.lookup_eq_none_iff]
        intro e he
        simp only [bne_iff_ne, ne_eq]
        intro heq
        exact hx (List.mem_map.2 ⟨e, he, heq.symm⟩)
      rw [InlineStyle.get?, List.lookup_append, hnone]
      rfl
    dsimp only
    rw [hget, InlineStyle.setLast, InlineStyle.setLast, InlineStyle.remove, InlineStyle.remove,
      InlineStyle.removeEntry_append hx, List.append_assoc]

theorem foldl_put_append {front : List (String × String)} {xs : List Setting}
    (hx : ∀ x ∈ xs, x.property ∉ front.map (·.1)) (style : InlineStyle) :
    xs.foldl (styler.put s) ⟨front ++ style.entries⟩ =
      ⟨front ++ (xs.foldl (styler.put s) style).entries⟩ := by
  induction xs generalizing style with
  | nil => rfl
  | cons x xs ih =>
    rw [List.foldl_cons, put_append (hx x (by simp)), ih fun y hy => hx y (by simp [hy])]
    rfl

/-- Declarations of different properties are put one behind the other. -/
theorem foldl_set_eq {ds : List Declaration} {style : InlineStyle}
    (hn : (style.properties ++ ds.map (·.property)).Nodup) :
    ds.foldl (fun style d => style.set d.property d.value) style =
      ⟨style.entries ++ ds.map fun d => (d.property, d.value)⟩ := by
  induction ds generalizing style with
  | nil => simp
  | cons d ds ih =>
    have hnew : d.property ∉ style.properties := by
      intro hm
      exact (List.nodup_append.1 hn).2.2 _ hm _ (by simp) rfl
    rw [List.foldl_cons, InlineStyle.set_of_not_mem hnew, ih]
    · simp
    · simpa [InlineStyle.properties] using hn

theorem toggles_eq (hs : s.Sound) :
    toggles s = ⟨s.declarations.map fun d => (d.property, d.value)⟩ := by
  have hn : (InlineStyle.empty.properties ++ s.declarations.map (·.property)).Nodup :=
    hs.nodup_declarations
  exact foldl_set_eq hn

/-- **The toggles stay in front** of all that is set. -/
theorem declarations_styleOf (hs : s.Sound) {props : List (String × Value)}
    (hp : ∀ x ∈ styler.sources s props, x.property ∉ s.declarations.map (·.property)) :
    (styler.styleOf s props).declarations =
      s.declarations ++ ((styler.applied s props).foldl (styler.put s) .empty).declarations := by
  have hfront : ∀ x ∈ styler.applied s props,
      x.property ∉ (s.declarations.map fun d => (d.property, d.value)).map (·.1) := by
    intro x hx
    rw [List.map_map]
    exact hp x (mem_applied.1 hx)
  have hstyle : styler.styleOf s props =
      ⟨(s.declarations.map fun d => (d.property, d.value)) ++
        ((styler.applied s props).foldl (styler.put s) .empty).entries⟩ := by
    rw [styleOf, toggles_eq hs, ← foldl_put_append hfront, InlineStyle.empty, List.append_nil]
  rw [hstyle, InlineStyle.declarations, List.map_append, List.map_map]
  congr 1
  exact List.map_id _

/-- **The order of a resolved style.** Let nothing set a toggle that goes inline.
Then resolving succeeds, and the style has every property once. It begins with
the toggles as they are declared. Behind them come the properties that no
conditional prop sets, in the order in which the default style and then the
`initial:` props set them first, and at the end those that conditional props
set, in the order in which they set them last. What has no CSS form sets
nothing. -/
theorem resolve_order (h : s.Reachable) (styler : Styler) (props : List (String × Value))
    (hp : ∀ x ∈ styler.sources s props, x.property ∉ s.declarations.map (·.property)) :
    ∃ r, styler.resolve s props = .ok r ∧ r.style.properties.Nodup ∧
      s.declarations <+: r.style.declarations ∧
      r.style.properties = s.declarations.map (·.property) ++
        ((Setting.firstSet (styler.unconditional s props)).filter
            (· ∉ (styler.conditional s props).map (·.property)) ++
          Setting.lastSet (styler.conditional s props)) := by
  have hdeclarations := declarations_styleOf h.sound hp
  refine ⟨_, resolve_eq props, nodup_foldl_put nodup_toggles _, ?_, ?_⟩
  · exact hdeclarations ▸ List.prefix_append _ _
  · rw [← InlineStyle.map_property_declarations, hdeclarations, List.map_append,
      InlineStyle.map_property_declarations, properties_applied]

/-- Two default properties, and a prop for the padding that names one side
twice. -/
def paddedStyler : Styler where
  defaultStyle := ⟨[("color", "white"), ("gap", "1px")]⟩
  expansion :=
    (({} : Aliases).insert "pad" ["padding-left", "padding-right", "padding-left"]).expand

/-- Conditional props among unconditional ones; a boolean is no color. -/
def paddedProps : List (String × Value) :=
  [("lit:pad", .string "1px"), ("initial:width", .string "2px"), ("lit:gap", .string "2px"),
    ("dim:color", .boolean true), ("initial:pad", .string "3px"),
    ("dim:padding-left", .string "5px")]

theorem resolve_order_padded :
    ∃ parent s r, Scope.root Scope.litDefinitions = .ok parent ∧
      parent.nest Scope.shadeDefinitions = .ok s ∧ s.declarations ≠ [] ∧
        paddedStyler.resolve s paddedProps = .ok r ∧
          r.style.properties = s.declarations.map (·.property) ++
            ["color", "width", "padding-right", "gap", "padding-left"] := by
  have hany : ((Scope.root Scope.litDefinitions).toOption.bind fun parent =>
      (parent.nest Scope.shadeDefinitions).toOption).any (fun s => decide
        (s.declarations ≠ [] ∧
          (∀ x ∈ paddedStyler.sources s paddedProps,
            x.property ∉ s.declarations.map (·.property)) ∧
          Setting.firstSet (paddedStyler.unconditional s paddedProps) =
            ["color", "gap", "width", "padding-left", "padding-right"] ∧
          (paddedStyler.conditional s paddedProps).map (·.property) =
            ["padding-left", "padding-right", "padding-left", "gap", "padding-left"])) = true := by
    decide +kernel
  obtain ⟨parent, s, hparent, hs, hp⟩ := Scope.exists_nested_of_any hany
  obtain ⟨hsome, hfree, hfirst, hconditional⟩ := of_decide_eq_true hp
  obtain ⟨r, hr, -, -, horder⟩ :=
    resolve_order (.nest (.root hparent) hs) paddedStyler paddedProps hfree
  refine ⟨parent, s, r, hparent, hs, hsome, hr, ?_⟩
  rw [horder, Setting.lastSet, hfirst, hconditional]
  rfl

end Styler

end VarLogic.Props
