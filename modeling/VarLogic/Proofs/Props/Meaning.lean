/-
What a resolved style means on an element. The pairs of the hooks stand in the
sheet, and no prop sets one of them, so a value text on such an element stands
for the side that its condition selects. Settings are put one after the other:
each of them keeps that every property stands for the last setting that counts
(`follows_foldl_put`), and the unconditional ones come first, so the last one
is the one that `meaning` says (`resolve_meaning`).
-/
import VarLogic.Proofs.Props.Resolve
import VarLogic.Proofs.Scope.Generated
import Mathlib.Data.List.Induction

namespace VarLogic

open Json (Value)
open Condition (truth?)
open Element (Balanced HasReference)

/-! ## Texts -/

/-- A text has its parentheses closed and stands for the words of another. -/
structure Element.Shows (e : Element) (text css : String) : Prop where
  balanced : Balanced text.toList
  resolve? : e.resolve? text = some (Element.collapse css.toList)

theorem Element.Shows.of_plain {e : Element} {css : String} (hb : Balanced css.toList)
    (hr : ¬ HasReference css.toList) : e.Shows css css :=
  ⟨hb, by rw [Element.resolve?, substitute?_plain hr, Option.map_some]⟩

theorem Props.Fallback.shows_keyword (f : Fallback) (e : Element) : e.Shows f.keyword f.keyword := by
  have hplain : Element.IsPlain f.keyword := by
    cases f <;> simp [keyword, Element.IsPlain, Text.isBlank]
  exact .of_plain hplain.balanced hplain.not_hasReference

namespace Scope

variable {s : Scope} {active : String → Bool}

/-- Whether a condition holds with all names expanded, where the hooks in
`active` match. -/
def holds (s : Scope) (active : String → Bool) (name : String) : Bool :=
  truth? active (s.expansion name) == some true

/-- The toggles of the hooks are decided where no inline declaration is about
one of their pairs. -/
theorem decides_elementWith (hs : s.Sound) {inline : List Declaration}
    (hi : ∀ p ∈ s.pairNames, p ∉ inline.map (·.property)) {text id : String}
    (hid : s.hookId? text = some id) :
    (s.elementWith active inline).Decides [] id (s.isOn active id) := by
  rw [isOn_of_hookId? hs active hid]
  obtain ⟨entry, hh, rfl, rfl⟩ := mem_hooks_of_hookId? hid
  have hpair : ∀ on, (s.elementWith active inline).declared.lookup (Toggle.property entry.id on) =
      some (if active entry.hook.text = on then "initial" else "") := fun on => by
    have hmem := property_mem_pairNames hh on
    have hown : (s.element active).declared.lookup (Toggle.property entry.id on) = _ := lookup_pair hs hh on
    rw [lookup_element, valueIn_eq_none (pairNames_not_inline hs hmem)] at hown
    rw [lookup_elementWith, valueIn_eq_none (hi _ hmem), hown]
  refine Element.settled_pair ?_ ?_ [] (by simp)
  · rw [hpair, if_pos rfl]
  · rw [hpair, if_neg (by simp)]

/-- A value text stands for the side its condition selects. -/
theorem shows_textOf (hs : s.Sound) {e : Element}
    (hd : ∀ text id, s.hookId? text = some id → e.Decides [] id (s.isOn active id)) {name : String}
    (hn : s.contains name) {ifTrue ifFalse t f : String} (ht : e.Shows ifTrue t)
    (hf : e.Shows ifFalse f) :
    e.Shows (s.textOf name ifTrue ifFalse) (if s.holds active name then t else f) := by
  obtain ⟨c, hlookup⟩ := Option.isSome_iff_exists.1 hn
  have hc := lookup?_some hs hlookup
  rw [holds, truth?_expansion hs active hlookup, textOf, hlookup, Option.bind_some]
  cases hk : c.compiled with
  | none => exact hf
  | some k =>
    have hleaf : ∀ a ∈ k.formula.leaves, Element.IsPlain a ∧ e.Decides [] a (s.isOn active a) :=
      fun a ha => by
        obtain ⟨text, hid⟩ := hookId?_of_mem_leaves hs hc hk ha
        exact ⟨(settled_hookId hs active hid).1, hd text a hid⟩
    have hpad := Element.substitute?_valueText (fun a ha => (hleaf a ha).1)
      (fun a ha => (hleaf a (Formula.mem_leaves_of_asked ha)).2) ht.balanced hf.balanced
    refine ⟨Formula.balanced_valueText (fun a ha => (hleaf a ha).1.balanced) ht.balanced hf.balanced, ?_⟩
    rw [Option.elim_some, Element.resolve?, hpad.map_collapse, Option.map_some]
    cases k.formula.eval (s.isOn active) with
    | true => exact ht.resolve?
    | false => exact hf.resolve?

end Scope

namespace Props.Styler

variable {styler : Styler} {s : Scope}

/-! ## Settings -/

/-- What the last setting of a property says, of those that count. -/
def lastOf (styler : Styler) (holds : String → Bool) (xs : List Setting) (p : String) : String :=
  ((xs.filter fun x => x.property = p && x.condition.all holds).getLast?.map (·.css)).getD
    styler.fallback.keyword

theorem lastOf_concat (holds : String → Bool) (xs : List Setting) (x : Setting) (p : String) :
    styler.lastOf holds (xs ++ [x]) p =
      if x.property = p && x.condition.all holds then x.css else styler.lastOf holds xs p := by
  rw [lastOf, List.filter_append]
  split
  · rename_i h
    simp [h]
  · rename_i h
    simp [h, lastOf]

/-- In the order of application, the last setting that counts is the one of the
meaning. -/
theorem lastOf_applied (holds : String → Bool) (props : List (String × Value)) (p : String) :
    styler.lastOf holds (styler.applied s props) p = styler.meaning s holds props p := by
  have hdefault : styler.defaults.filter (fun x => x.property = p && x.condition.all holds) =
      styler.defaults.filter (·.property = p) := by
    refine List.filter_congr fun x hx => ?_
    obtain ⟨d, -, rfl⟩ := List.mem_map.1 hx
    simp
  have hinitial : ∀ xs : List Setting,
      (xs.filter (·.condition.isNone)).filter (fun x => x.property = p && x.condition.all holds) =
        (xs.filter (·.property = p)).filter (·.condition.isNone) := fun xs => by
    rw [List.filter_filter, List.filter_filter]
    exact List.filter_congr fun x _ => by cases x.condition <;> simp
  have hconditional : ∀ xs : List Setting,
      (xs.filter (·.condition.isSome)).filter (fun x => x.property = p && x.condition.all holds) =
        (xs.filter (·.property = p)).filter (·.condition.any holds) := fun xs => by
    rw [List.filter_filter, List.filter_filter]
    exact List.filter_congr fun x _ => by cases x.condition <;> simp [Bool.and_comm]
  rw [lastOf, applied, List.filter_append, List.filter_append, hdefault, hinitial, hconditional,
    List.getLast?_append, List.getLast?_append, Option.or_assoc]
  rfl

/-! ## Styles -/

/-- Outside the toggles, every property stands for the last setting that
counts. -/
def Follows (styler : Styler) (s : Scope) (active : String → Bool) (e : Element)
    (style : InlineStyle) (xs : List Setting) : Prop :=
  ∀ p, p ∉ s.declarations.map (·.property) →
    e.Shows ((style.get? p).getD styler.fallback.keyword) (styler.lastOf (s.holds active) xs p)

/-- **A setting more is the last one**, if its condition holds. -/
theorem follows_put (hs : s.Sound) {active : String → Bool} {e : Element}
    (hd : ∀ text id, s.hookId? text = some id → e.Decides [] id (s.isOn active id))
    {style : InlineStyle} (hn : style.properties.Nodup) {xs : List Setting}
    (h : styler.Follows s active e style xs) {x : Setting} (hx : e.Shows x.css x.css)
    (hc : ∀ c, x.condition = some c → s.contains c) :
    styler.Follows s active e (styler.put s style x) (xs ++ [x]) := by
  intro p hp
  rw [get?_put hn, lastOf_concat]
  by_cases hprop : p = x.property
  · subst hprop
    cases hcond : x.condition with
    | none => simpa using hx
    | some c => simpa using Scope.shows_textOf hs hd (hc c hcond) hx (h x.property hp)
  · simpa [hprop, Ne.symm hprop] using h p hp

theorem follows_foldl_put (hs : s.Sound) {active : String → Bool} {e : Element}
    (hd : ∀ text id, s.hookId? text = some id → e.Decides [] id (s.isOn active id))
    {xs : List Setting} (hx : ∀ x ∈ xs, e.Shows x.css x.css)
    (hc : ∀ x ∈ xs, ∀ c, x.condition = some c → s.contains c) :
    styler.Follows s active e (xs.foldl (styler.put s) (toggles s)) xs := by
  induction xs using List.reverseRecOn with
  | nil =>
    intro p hp
    have hnone : (toggles s).get? p = none := by
      simpa using mt isSome_get?_toggles.1 hp
    rw [List.foldl_nil, hnone]
    exact styler.fallback.shows_keyword e
  | append_singleton xs x ih =>
    rw [List.foldl_append]
    exact follows_put hs hd (nodup_foldl_put nodup_toggles xs) (ih (fun y hy => hx y (by simp [hy])) fun y hy => hc y (by simp [hy]))
      (hx x (by simp)) (hc x (by simp))

/-! ## Resolving -/

theorem declarations_generated (hs : s.Sound) {p : String}
    (hp : p ∈ s.declarations.map (·.property)) : p ∈ s.generatedNames := by
  rw [← (Scope.perm_generatedNames hs).mem_iff, List.map_append]
  exact List.mem_append_right _ hp

/-- No pair of a hook is in a style, if nothing sets a generated name. -/
theorem pairNames_not_mem_styleOf (hs : s.Sound) {props : List (String × Value)}
    (hp : ∀ x ∈ styler.sources s props, x.property ∉ s.generatedNames) {p : String}
    (hpair : p ∈ s.pairNames) :
    p ∉ (styler.styleOf s props).declarations.map (·.property) := fun hm => by
  rcases isSome_get?_styleOf.1 (InlineStyle.mem_properties.1 hm) with hm | ⟨x, hx, rfl⟩
  · exact Scope.pairNames_not_inline hs hpair hm
  · refine hp x hx ?_
    rw [Scope.generatedNames_eq hs]
    exact List.mem_append_left _ hpair

/-- **What a resolved style means.** Let what the default style and the props
set be plain texts, and none of it a generated name. Then resolving succeeds,
and leaves out what has no CSS form. A property that is no toggle is there if
the default style or a prop sets it, and its text resolves to what `meaning`
says, whatever hooks are active. -/
theorem resolve_meaning {s : Scope} (h : s.Reachable) (styler : Styler)
    (props : List (String × Value))
    (hp : ∀ x ∈ styler.sources s props,
      (Balanced x.css.toList ∧ ¬ HasReference x.css.toList) ∧ x.property ∉ s.generatedNames) :
    ∃ r, styler.resolve s props = .ok r ∧
      (∀ front prop back, props = front ++ prop :: back → route s prop.1 ≠ .forward →
        styler.settingsOf s prop = [] → styler.resolve s (front ++ back) = .ok r) ∧
      ∀ p, p ∉ s.generatedNames →
        ((r.style.get? p).isSome ↔ ∃ x ∈ styler.sources s props, x.property = p) ∧
        ∀ active text, r.style.get? p = some text →
          (s.elementWith active r.style.declarations).resolve? text =
            some (Element.collapse (styler.meaning s (s.holds active) props p).toList) := by
  have hs := h.sound
  refine ⟨_, resolve_eq props, ?_, fun p hfree => ⟨?_, fun active text htext => ?_⟩⟩
  · rintro front prop back rfl hr hn
    rw [resolve_erase hr hn, resolve_eq]
  · rw [isSome_get?_styleOf, or_iff_right fun hm => hfree (declarations_generated hs hm)]
  · have hd : ∀ text id, s.hookId? text = some id →
        (s.elementWith active (styler.styleOf s props).declarations).Decides [] id
          (s.isOn active id) := fun text id =>
      Scope.decides_elementWith hs fun q => pairNames_not_mem_styleOf hs fun x hx => (hp x hx).2
    have hx : ∀ x ∈ styler.applied s props,
        (s.elementWith active (styler.styleOf s props).declarations).Shows x.css x.css :=
      fun x hx => .of_plain (hp x (mem_applied.1 hx)).1.1 (hp x (mem_applied.1 hx)).1.2
    have hfollows : styler.Follows s active _ (styler.styleOf s props) (styler.applied s props) :=
      follows_foldl_put hs hd hx fun x hx c => contains_of_mem_applied hx
    have hshows := hfollows p fun hm => hfree (declarations_generated hs hm)
    change (styler.styleOf s props).get? p = some text at htext
    rw [htext, lastOf_applied] at hshows
    exact hshows.resolve?

/-- White, unless something else is said. -/
def whiteStyler : Styler := { defaultStyle := ⟨[("color", "white")]⟩ }

/-- Gold where it is lit, and black elsewhere; a boolean is no color. -/
def goldProps : List (String × Value) :=
  [("lit:color", .string "gold"), ("dim:color", .boolean true), ("initial:color", .string "black")]

theorem resolve_meaning_gold :
    ∃ parent s r text, Scope.root Scope.litDefinitions = .ok parent ∧
      parent.nest Scope.shadeDefinitions = .ok s ∧ whiteStyler.resolve s goldProps = .ok r ∧
        r.style.get? "color" = some text ∧
          (s.elementWith (· = ".dark &") r.style.declarations).resolve? text = some "gold" := by
  have hany : ((Scope.root Scope.litDefinitions).toOption.bind fun parent =>
      (parent.nest Scope.shadeDefinitions).toOption).any (fun s => decide
        (((whiteStyler.sources s goldProps).all fun x =>
          (x.css.toList.all fun c => c ≠ '(' && c ≠ ')' && c ≠ ',' && !Text.isBlank c) &&
            decide (x.property ∉ s.generatedNames)) = true ∧
          "color" ∉ s.generatedNames ∧
          whiteStyler.meaning s (s.holds (· = ".dark &")) goldProps "color" = "gold")) = true := by
    decide +kernel
  obtain ⟨parent, s, hparent, hs, hp⟩ := Scope.exists_nested_of_any hany
  obtain ⟨hplain, hfree, hmeaning⟩ := of_decide_eq_true hp
  simp only [List.all_eq_true, Bool.and_eq_true, Bool.not_eq_true', decide_eq_true_eq,
    and_assoc] at hplain
  obtain ⟨r, hr, -, h⟩ := resolve_meaning (.nest (.root hparent) hs) whiteStyler goldProps
    fun x hx =>
      have hcss : Element.IsPlain x.css := (hplain x hx).1
      ⟨⟨hcss.balanced, hcss.not_hasReference⟩, (hplain x hx).2⟩
  obtain ⟨hthere, hresolve⟩ := h "color" hfree
  obtain ⟨text, htext⟩ := Option.isSome_iff_exists.1
    (hthere.2 ⟨⟨none, "color", "white"⟩, by simp [sources, defaults, whiteStyler], rfl⟩)
  refine ⟨parent, s, r, text, hparent, hs, hr, htext, ?_⟩
  rw [hresolve _ text htext, hmeaning]
  decide

end Props.Styler

end VarLogic
