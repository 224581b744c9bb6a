/-
Resolving props puts settings into a style one after the other: what is there
before any prop, what the `initial:` props set, and then what the conditional
ones set (`resolve_eq`). No setting makes a property come twice (`nodup_put`), so
it changes its own property only (`get?_put`), and a property is there where
something sets it (`isSome_get?_styleOf`).
-/
import VarLogic.Proofs.Props.InlineStyle
import Mathlib.Data.List.Basic

namespace VarLogic

open Json (Value)

/-- The value text of a name in sight. -/
def Scope.textOf (s : Scope) (name ifTrue ifFalse : String) : String :=
  ((s.lookup? name).bind (·.compiled)).elim ifFalse (·.formula.valueText ifTrue ifFalse)

theorem Scope.valueText_eq {s : Scope} {name : String} (h : s.contains name) (ifTrue ifFalse : String) :
    s.valueText name ifTrue ifFalse = .ok (s.textOf name ifTrue ifFalse) := by
  obtain ⟨c, hc⟩ := Option.isSome_iff_exists.1 h
  cases hk : c.compiled <;>
    simp [valueText, formula, textOf, hc, hk, bind, Except.bind, pure, Except.pure]

namespace Props

/-! ## Routes -/

/-- What makes a prop unconditional. -/
theorem route_eq_initial {s : Scope} {key name : String} :
    route s key = .initial name ↔ splitKey? key = some (initialPrefix, name) ∧ name ≠ "" := by
  unfold route
  cases splitKey? key with
  | none => simp
  | some parts =>
    obtain ⟨first, prop⟩ := parts
    grind

/-- What makes a prop conditional. -/
theorem route_eq_conditional {s : Scope} {key condition name : String} :
    route s key = .conditional condition name ↔
      splitKey? key = some (condition, name) ∧ name ≠ "" ∧ condition ≠ initialPrefix ∧
        s.contains condition := by
  unfold route
  cases splitKey? key with
  | none => simp
  | some parts =>
    obtain ⟨first, prop⟩ := parts
    grind

theorem isInitial_of_initial {s : Scope} {key name : String} (h : route s key = .initial name) :
    isInitial key = true := by
  simp [isInitial, (route_eq_initial.1 h).1]

theorem isInitial_of_conditional {s : Scope} {key condition name : String}
    (h : route s key = .conditional condition name) : isInitial key = false := by
  obtain ⟨hk, -, hf, -⟩ := route_eq_conditional.1 h
  simp [isInitial, hk, hf]

/-! ## Settings -/

theorem condition_of_mem_ofOutputs {condition : Option String} {outputs : List (String × Value)}
    {x : Setting} (h : x ∈ Setting.ofOutputs condition outputs) : x.condition = condition := by
  simp only [Setting.ofOutputs, List.mem_filterMap, Option.map_eq_some_iff] at h
  obtain ⟨_, -, css, -, rfl⟩ := h
  rfl

namespace Styler

variable {styler : Styler} {scope : Scope}

/-- What a prop sets is unconditional if its prefix is `initial`. -/
theorem isNone_condition {prop : String × Value} {x : Setting}
    (h : x ∈ styler.settingsOf scope prop) : x.condition.isNone = isInitial prop.1 := by
  unfold settingsOf at h
  split at h
  · cases h
  · rename_i hr
    rw [condition_of_mem_ofOutputs h, isInitial_of_initial hr]
    rfl
  · rename_i hr
    rw [condition_of_mem_ofOutputs h, isInitial_of_conditional hr]
    rfl

/-- Its condition is in sight. -/
theorem contains_of_mem_settings {props : List (String × Value)} {x : Setting}
    (h : x ∈ styler.settings scope props) {c : String} (hc : x.condition = some c) :
    scope.contains c := by
  obtain ⟨prop, -, h⟩ := List.mem_flatMap.1 h
  unfold settingsOf at h
  split at h
  · cases h
  · rw [condition_of_mem_ofOutputs h] at hc
    cases hc
  · rename_i hr
    rw [condition_of_mem_ofOutputs h] at hc
    cases hc
    exact (route_eq_conditional.1 hr).2.2.2

/-- Choosing props by their prefix chooses among what they set. -/
theorem settings_filter {q : Bool → Bool} (props : List (String × Value)) :
    styler.settings scope (props.filter fun p => q (isInitial p.1)) =
      (styler.settings scope props).filter fun x => q x.condition.isNone := by
  induction props with
  | nil => rfl
  | cons prop props ih =>
    have hall : ∀ x ∈ styler.settingsOf scope prop,
        q x.condition.isNone = q (isInitial prop.1) := fun x hx => by rw [isNone_condition hx]
    have hown : (styler.settingsOf scope prop).filter (fun x => q x.condition.isNone) =
        if q (isInitial prop.1) then styler.settingsOf scope prop else [] := by
      rw [List.filter_congr hall]
      cases q (isInitial prop.1) <;> simp
    simp only [settings, List.flatMap_cons, List.filter_append, hown, List.filter_cons] at ih ⊢
    rw [← ih]
    cases q (isInitial prop.1) <;> simp

/-- In the order of application, what is set unconditionally comes first. -/
theorem settings_ordered (props : List (String × Value)) :
    styler.settings scope (ordered props) =
      (styler.settings scope props).filter (·.condition.isNone) ++
        (styler.settings scope props).filter (·.condition.isSome) := by
  have hcond : ∀ x : Setting, x.condition.isSome = !x.condition.isNone := fun x => by simp
  rw [settings, ordered, List.flatMap_append]
  simp only [hcond]
  congr 1
  · exact settings_filter (q := id) props
  · exact settings_filter (q := Bool.not) props

/-! ## Putting -/

/-- The style with a setting more: a conditional one wraps what the property
has so far. -/
def put (styler : Styler) (scope : Scope) (style : InlineStyle) (x : Setting) : InlineStyle :=
  match x.condition with
  | none => style.set x.property x.css
  | some c => style.setLast x.property
      (scope.textOf c x.css ((style.get? x.property).getD styler.fallback.keyword))

/-- **Putting keeps properties apart.** -/
theorem nodup_put {style : InlineStyle} (h : style.properties.Nodup) (x : Setting) :
    (styler.put scope style x).properties.Nodup := by
  unfold put
  cases x.condition with
  | none => exact InlineStyle.nodup_set h _ _
  | some c => exact InlineStyle.nodup_setLast h _ _

theorem nodup_foldl_put {style : InlineStyle} (h : style.properties.Nodup) (xs : List Setting) :
    (xs.foldl (styler.put scope) style).properties.Nodup := by
  induction xs generalizing style with
  | nil => exact h
  | cons x xs ih => exact ih (nodup_put h x)

theorem get?_put {style : InlineStyle} (h : style.properties.Nodup) (x : Setting) (p : String) :
    (styler.put scope style x).get? p =
      if p = x.property then
        some (x.condition.elim x.css fun c =>
          scope.textOf c x.css ((style.get? p).getD styler.fallback.keyword))
      else style.get? p := by
  unfold put
  split
  · rename_i hc
    rw [InlineStyle.get?_set, hc]
    rfl
  · rename_i c hc
    rw [InlineStyle.get?_setLast h, hc]
    split
    · rename_i hp
      rw [hp]
      rfl
    · rfl

/-- A property is there if it was, or if something set it. -/
theorem isSome_get?_foldl_put {style : InlineStyle} (h : style.properties.Nodup)
    (xs : List Setting) (p : String) :
    ((xs.foldl (styler.put scope) style).get? p).isSome ↔
      (style.get? p).isSome ∨ ∃ x ∈ xs, x.property = p := by
  induction xs generalizing style with
  | nil => simp
  | cons x xs ih =>
    rw [List.foldl_cons, ih (nodup_put h x), get?_put h, List.exists_mem_cons_iff, ← or_assoc]
    refine or_congr ?_ Iff.rfl
    by_cases hp : p = x.property
    · simp [hp]
    · simp [hp, Ne.symm hp]

/-! ## Props -/

theorem foldl_setInitial (outputs : List (String × Value)) (style : InlineStyle) :
    outputs.foldl setInitial style =
      (Setting.ofOutputs none outputs).foldl (styler.put scope) style := by
  induction outputs generalizing style with
  | nil => rfl
  | cons o outputs ih =>
    obtain ⟨property, v⟩ := o
    rw [List.foldl_cons, ih, setInitial]
    cases hv : cssForm? property v <;> simp [Setting.ofOutputs, hv, put]

theorem foldlM_setConditional {condition : String} (hc : scope.contains condition)
    (outputs : List (String × Value)) (style : InlineStyle) :
    outputs.foldlM (styler.setConditional scope condition) style =
      .ok ((Setting.ofOutputs (some condition) outputs).foldl (styler.put scope) style) := by
  induction outputs generalizing style with
  | nil => rfl
  | cons o outputs ih =>
    obtain ⟨property, v⟩ := o
    rw [List.foldlM_cons, setConditional]
    cases hv : cssForm? property v with
    | none => simpa [Setting.ofOutputs, hv, bind, Except.bind] using ih style
    | some css =>
      simp only [Scope.valueText_eq hc, bind, Except.bind, pure, Except.pure]
      simpa [Setting.ofOutputs, hv, put] using ih _

/-- A prop puts what it sets, or is forwarded. -/
theorem apply_eq (r : Resolved) (prop : String × Value) :
    styler.apply scope r prop =
      .ok ⟨(styler.settingsOf scope prop).foldl (styler.put scope) r.style,
        r.forward ++ [prop].filter (route scope ·.1 = .forward)⟩ := by
  unfold apply settingsOf
  cases hr : route scope prop.1 with
  | forward => simp [hr]
  | initial name => simp [hr, ← foldl_setInitial]
  | conditional condition name =>
    simp [hr, foldlM_setConditional (route_eq_conditional.1 hr).2.2.2, bind, Except.bind, pure, Except.pure]

theorem foldlM_apply (props : List (String × Value)) (r : Resolved) :
    props.foldlM (styler.apply scope) r =
      .ok ⟨(styler.settings scope props).foldl (styler.put scope) r.style,
        r.forward ++ props.filter (route scope ·.1 = .forward)⟩ := by
  induction props generalizing r with
  | nil => simp [settings, pure, Except.pure]
  | cons prop props ih =>
    rw [List.foldlM_cons, apply_eq]
    simp only [bind, Except.bind]
    rw [ih, settings, settings, List.flatMap_cons, List.foldl_append, List.append_assoc,
      ← List.filter_append, List.singleton_append]

/-- The toggles that go inline, as a style. -/
def toggles (scope : Scope) : InlineStyle :=
  scope.declarations.foldl (fun style d => style.set d.property d.value) .empty

theorem nodup_toggles : (toggles scope).properties.Nodup := by
  refine List.foldlRecOn (motive := fun style : InlineStyle => style.properties.Nodup) _ _
    InlineStyle.nodup_empty ?_
  intro style h d _
  exact InlineStyle.nodup_set h _ _

theorem base_eq : styler.base scope = styler.defaults.foldl (styler.put scope) (toggles scope) := by
  rw [base, defaults, List.foldl_map]
  rfl

theorem isSome_get?_toggles {p : String} :
    ((toggles scope).get? p).isSome ↔ p ∈ scope.declarations.map (·.property) := by
  have run : ∀ (ds : List Declaration) (style : InlineStyle),
      ((ds.foldl (fun style d => style.set d.property d.value) style).get? p).isSome ↔
        (style.get? p).isSome ∨ p ∈ ds.map (·.property) := by
    intro ds
    induction ds with
    | nil => simp
    | cons d ds ih =>
      intro style
      rw [List.foldl_cons, ih, InlineStyle.get?_set, List.map_cons, List.mem_cons, ← or_assoc]
      refine or_congr ?_ Iff.rfl
      by_cases hp : p = d.property
      · simp [hp]
      · simp [hp]
  rw [toggles, run]
  simp [InlineStyle.get?, InlineStyle.empty]

/-- What is put into a style, in the order of application. -/
def applied (styler : Styler) (scope : Scope) (props : List (String × Value)) : List Setting :=
  styler.defaults ++ ((styler.settings scope props).filter (·.condition.isNone) ++
    (styler.settings scope props).filter (·.condition.isSome))

theorem mem_applied {props : List (String × Value)} {x : Setting} :
    x ∈ styler.applied scope props ↔ x ∈ styler.sources scope props := by
  simp only [applied, sources, List.mem_append, List.mem_filter]
  cases x.condition <;> simp

theorem contains_of_mem_applied {props : List (String × Value)} {x : Setting}
    (h : x ∈ styler.applied scope props) {c : String} (hc : x.condition = some c) :
    scope.contains c := by
  rw [mem_applied, sources, List.mem_append] at h
  rcases h with h | h
  · obtain ⟨d, -, rfl⟩ := List.mem_map.1 h
    cases hc
  · exact contains_of_mem_settings h hc

/-- The style of props: all that is set, on top of the toggles. -/
def styleOf (styler : Styler) (scope : Scope) (props : List (String × Value)) : InlineStyle :=
  (styler.applied scope props).foldl (styler.put scope) (toggles scope)

/-- A toggle that goes inline is there, and whatever something sets. -/
theorem isSome_get?_styleOf {props : List (String × Value)} {p : String} :
    ((styler.styleOf scope props).get? p).isSome ↔
      p ∈ scope.declarations.map (·.property) ∨ ∃ x ∈ styler.sources scope props, x.property = p := by
  simp only [styleOf, isSome_get?_foldl_put nodup_toggles, isSome_get?_toggles, mem_applied]

/-- **Resolving succeeds.** -/
theorem resolve_eq (props : List (String × Value)) :
    styler.resolve scope props =
      .ok ⟨styler.styleOf scope props, (ordered props).filter (route scope ·.1 = .forward)⟩ := by
  have hstyle : styler.styleOf scope props =
      (styler.settings scope (ordered props)).foldl (styler.put scope) (styler.base scope) := by
    rw [styleOf, applied, List.foldl_append, settings_ordered, base_eq]
  rw [resolve, foldlM_apply, hstyle, List.nil_append]

theorem filter_ordered (q : String × Value → Bool) (props : List (String × Value)) :
    (ordered props).filter q = ordered (props.filter q) := by
  simp [ordered, List.filter_filter, Bool.and_comm]

/-- A style prop that sets nothing may as well be left out. -/
theorem resolve_erase {front back : List (String × Value)} {prop : String × Value}
    (hr : route scope prop.1 ≠ .forward) (hn : styler.settingsOf scope prop = []) :
    styler.resolve scope (front ++ back) = styler.resolve scope (front ++ prop :: back) := by
  have hs : styler.settings scope (front ++ prop :: back) = styler.settings scope (front ++ back) := by
    simp [settings, hn]
  have hf : (front ++ prop :: back).filter (route scope ·.1 = .forward) =
      (front ++ back).filter (route scope ·.1 = .forward) := by
    simp [hr]
  rw [resolve_eq, resolve_eq, styleOf, styleOf, applied, applied, hs, filter_ordered,
    filter_ordered, hf]

end Styler

end Props

end VarLogic
