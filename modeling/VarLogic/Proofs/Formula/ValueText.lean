/-
The value text of a formula is the branch it selects. On an element where a
toggle pair is decided, one of its two references falls back and the other
stands for blanks; so a leaf selects a branch, and the branches nested for
`and`, `or` and `not` select as the formula evaluates
(`substitute?_valueText`). Only the pairs that evaluation asks for matter.
-/
import VarLogic.Formula
import VarLogic.Proofs.Element.Substitution

namespace VarLogic

/-! ## Names in texts -/

namespace Toggle

open Element (IsPlain IsName Balanced trim_of_ends)

theorem isPlain_property {id : String} (h : IsPlain id) (on : Bool) : IsPlain (property id on) := by
  have hfront : IsPlain "--" := by simp [IsPlain, Text.isBlank]
  have hside : IsPlain (if on then "-1" else "-0") := by cases on <;> simp [IsPlain, Text.isBlank]
  intro c hc
  simp only [property, String.toList_append, List.mem_append] at hc
  rcases hc with (hc | hc) | hc
  · exact hfront c hc
  · exact h c hc
  · exact hside c hc

theorem balanced_property {id : String} (h : Balanced id.toList) (on : Bool) :
    Balanced (property id on).toList := by
  have hside : Balanced (if on then "-1" else "-0").toList := by
    cases on <;> exact .cons (by decide) (by decide) (.cons (by decide) (by decide) .nil)
  rw [property, String.toList_append, String.toList_append]
  exact (Balanced.append (.cons (by decide) (by decide) (.cons (by decide) (by decide) .nil)) h).append
    hside

/-- Blanks in an id are blanks inside the name of its properties. -/
theorem isName_property {id : String} (h : Balanced id.toList) (hc : ',' ∉ id.toList) (on : Bool) :
    IsName (property id on) where
  balanced := balanced_property h on
  comma := by cases on <;> simp [property, hc]
  trimmed := by
    have htext : (property id on).toList =
        '-' :: (('-' :: (id.toList ++ ['-'])) ++ [if on then '1' else '0']) := by
      cases on <;> simp [property]
    rw [htext]
    exact trim_of_ends (by decide) (by cases on <;> decide) _

theorem toList_reference (id : String) (on : Bool) :
    (reference id on).toList = 'v' :: 'a' :: 'r' :: '(' :: ((property id on).toList ++ ')' :: []) := by
  simp [reference]

theorem toList_referenceOr (id : String) (on : Bool) (fallback : String) :
    (referenceOr id on fallback).toList =
      'v' :: 'a' :: 'r' :: '(' ::
        ((property id on).toList ++ ',' :: ((' ' :: fallback.toList) ++ ')' :: [])) := by
  simp [referenceOr]

theorem balanced_reference {id : String} (h : IsPlain id) (on : Bool) :
    Balanced (reference id on).toList := by
  rw [toList_reference]
  exact .cons (by decide) (by decide) (.cons (by decide) (by decide) (.cons (by decide) (by decide)
    (.group (isPlain_property h on).balanced .nil)))

theorem balanced_referenceOr {id fallback : String} (h : Balanced id.toList) (on : Bool)
    (hf : Balanced fallback.toList) : Balanced (referenceOr id on fallback).toList := by
  have hbody : Balanced ((property id on).toList ++ ',' :: (' ' :: fallback.toList)) :=
    (balanced_property h on).append
      (.cons (by decide) (by decide) (.cons (by decide) (by decide) hf))
  have := Balanced.group hbody .nil
  rw [toList_referenceOr]
  exact .cons (by decide) (by decide) (.cons (by decide) (by decide) (.cons (by decide) (by decide)
    (by simpa using this)))

end Toggle

open Element (IsPlain Balanced)

theorem Formula.balanced_valueText {f : Formula String} (hp : ∀ a ∈ f.leaves, Balanced a.toList)
    {ifTrue ifFalse : String} (ht : Balanced ifTrue.toList) (hf : Balanced ifFalse.toList) :
    Balanced (f.valueText ifTrue ifFalse).toList := by
  induction f generalizing ifTrue ifFalse with
  | leaf id =>
    have h := hp id (by simp [leaves])
    simp only [valueText, String.toList_append]
    exact ((Toggle.balanced_referenceOr h true ht).append
      (.cons (by decide) (by decide) .nil)).append (Toggle.balanced_referenceOr h false hf)
  | and l r ihl ihr =>
    exact ihl (fun a ha => hp a (by simp [leaves, ha]))
      (ihr (fun a ha => hp a (by simp [leaves, ha])) ht hf) hf
  | or l r ihl ihr =>
    exact ihl (fun a ha => hp a (by simp [leaves, ha])) ht
      (ihr (fun a ha => hp a (by simp [leaves, ha])) ht hf)
  | not g ih => exact ih hp hf ht

/-- Evaluation asks for leaves only. -/
theorem Formula.mem_leaves_of_asked {α : Type} {holds : α → Bool} {f : Formula α} {a : α}
    (h : a ∈ f.asked holds) : a ∈ f.leaves := by
  induction f with
  | leaf b => exact h
  | and l r ihl ihr | or l r ihl ihr =>
    rw [asked, List.mem_append] at h
    rw [leaves, List.mem_append]
    refine h.imp ihl fun h => ihr ?_
    split at h
    · first | exact h | cases h
    · first | exact h | cases h
  | not g ih => exact ih h

/-! ## Blanks -/

namespace Element

def Blank (cs : List Char) : Prop := ∀ c ∈ cs, Text.isBlank c = true

/-- The same text, or none, but for blanks around it. -/
def Padded (x y : Option (List Char)) : Prop :=
  ∃ front back, Blank front ∧ Blank back ∧ x = y.map fun cs => front ++ cs ++ back

theorem Padded.refl (x : Option (List Char)) : Padded x x :=
  ⟨[], [], by simp [Blank], by simp [Blank], by simp⟩

theorem Padded.trans {x y z : Option (List Char)} (h : Padded x y) (h' : Padded y z) :
    Padded x z := by
  obtain ⟨f, b, hf, hb, rfl⟩ := h
  obtain ⟨f', b', hf', hb', rfl⟩ := h'
  refine ⟨f ++ f', b' ++ b, ?_, ?_, by simp [Function.comp_def]⟩
  · simpa [Blank, or_imp, forall_and] using ⟨hf, hf'⟩
  · simpa [Blank, or_imp, forall_and] using ⟨hb', hb⟩

/-- The words of a text. -/
def words (cs : List Char) : List (List Char) := (cs.splitOnP Text.isBlank).filter (!·.isEmpty)

theorem words_append_cons {c : Char} (hc : Text.isBlank c = true) (as bs : List Char) :
    words (as ++ c :: bs) = words as ++ words bs := by
  rw [words, List.splitOnP_append_cons as bs hc, List.filter_append]
  rfl

theorem words_of_blank : ∀ {cs : List Char}, Blank cs → words cs = []
  | [], _ => by simp [words]
  | c :: cs, h => by
    have := words_append_cons (h c (by simp)) [] cs
    rw [List.nil_append] at this
    have hcs : Blank cs := fun d hd => h d (by simp [hd])
    rw [this, words_of_blank hcs]
    simp [words]

theorem words_append_blank {back : List Char} (h : Blank back) (cs : List Char) :
    words (cs ++ back) = words cs := by
  cases back with
  | nil => simp
  | cons c back =>
    have hback : Blank back := fun d hd => h d (by simp [hd])
    rw [words_append_cons (h c (by simp)), words_of_blank hback]
    simp

theorem words_blank_append {front : List Char} (h : Blank front) (cs : List Char) :
    words (front ++ cs) = words cs := by
  induction front with
  | nil => rfl
  | cons c front ih =>
    have := words_append_cons (h c (by simp)) [] (front ++ cs)
    rw [List.nil_append] at this
    rw [List.cons_append, this, ih fun d hd => h d (by simp [hd])]
    simp [words]

/-- Blanks around a text do not show in what it resolves to. -/
theorem Padded.map_collapse {x y : Option (List Char)} (h : Padded x y) :
    x.map collapse = y.map collapse := by
  obtain ⟨front, back, hf, hb, rfl⟩ := h
  cases y with
  | none => rfl
  | some cs =>
    have hw : words (front ++ cs ++ back) = words cs := by
      rw [words_append_blank hb, words_blank_append hf]
    simpa [collapse, words] using congrArg (fun ws => String.intercalate " " (ws.map String.ofList)) hw

/-! ## Decided toggles -/

/-- While the properties `pending` are worked out, one side of a toggle pair
has no value, `-1` if the toggle is on, and the other side has a blank one. -/
def Decides (e : Element) (pending : List String) (id : String) (on : Bool) : Prop :=
  e.computed? pending (Toggle.property id on) = none ∧
    ∃ value, e.computed? pending (Toggle.property id !on) = some value ∧ Blank value

variable {e : Element} {pending : List String}

/-- Whether a toggle is on, if it is settled. -/
def state (e : Element) (id : String) : Bool :=
  (e.computed? [] (Toggle.property id true)).isNone

theorem Decides.state_eq {id : String} {on : Bool} (h : e.Decides [] id on) : e.state id = on := by
  obtain ⟨hlost, value, hkept, -⟩ := h
  cases on with
  | true => simp [state, hlost]
  | false => rw [Bool.not_false] at hkept; simp [state, hkept]

theorem Decides.toggle? {id : String} {on : Bool} (h : e.Decides [] id on) :
    e.toggle? id = some on := by
  obtain ⟨hlost, value, hkept, -⟩ := h
  cases on with
  | true =>
    rw [Bool.not_true] at hkept
    simp [Element.toggle?, value?, hlost, hkept]
  | false =>
    rw [Bool.not_false] at hkept
    simp [Element.toggle?, value?, hlost, hkept]

theorem blank_cons {cs : List Char} (h : Blank cs) : Blank (' ' :: cs) := by
  intro c hc
  rw [List.mem_cons] at hc
  exact hc.elim (fun he => he ▸ by decide) (h c)

/-- A leaf selects a branch. -/
theorem substitute?_valueText_leaf {id ifTrue ifFalse : String} (hid : Balanced id.toList)
    (hc : ',' ∉ id.toList) (ht : Balanced ifTrue.toList) (hf : Balanced ifFalse.toList) {on : Bool}
    (h : e.Decides pending id on) :
    Padded (e.substitute? pending ((Formula.leaf id).valueText ifTrue ifFalse).toList)
      (e.substitute? pending (if on then ifTrue else ifFalse).toList) := by
  have blank {fallback : String} (hb : Balanced fallback.toList) : Balanced (' ' :: fallback.toList) :=
    .cons (by decide) (by decide) hb
  have htext : ((Formula.leaf id).valueText ifTrue ifFalse).toList =
      'v' :: 'a' :: 'r' :: '(' :: ((Toggle.property id true).toList ++ ',' ::
        ((' ' :: ifTrue.toList) ++ ')' :: (' ' :: (Toggle.referenceOr id false ifFalse).toList))) := by
    simp [Formula.valueText, Toggle.toList_referenceOr]
  rw [htext, substitute?_referenceOr (Toggle.isName_property hid hc true) (blank ht),
    substitute?_cons (by decide), substitute?_cons (by decide), Toggle.toList_referenceOr,
    substitute?_referenceOr (Toggle.isName_property hid hc false) (blank hf),
    substitute?_cons (by decide), substitute?_nil]
  obtain ⟨hnone, value, hsome, hv⟩ := h
  cases on with
  | true =>
    refine ⟨[' '], ' ' :: value, blank_cons (by simp [Blank]), blank_cons hv, ?_⟩
    rw [Bool.not_true] at hsome
    rw [hnone, hsome, if_pos rfl]
    cases e.substitute? pending ifTrue.toList <;> simp
  | false =>
    refine ⟨value ++ [' ', ' '], [], ?_, by simp [Blank], ?_⟩
    · have h2 : Blank [' ', ' '] := blank_cons (blank_cons (by simp [Blank]))
      simpa [Blank, or_imp, forall_and] using ⟨hv, by simpa [Blank] using h2⟩
    · rw [Bool.not_false] at hsome
      rw [hnone, hsome, if_neg Bool.false_ne_true]
      cases e.substitute? pending ifFalse.toList <;> simp

/-- **A value text stands for the branch its formula selects**, blanks apart,
where the toggles that evaluation asks for are decided. No parenthesis may end a
reference too early, and no comma the name of a toggle that is asked for. -/
theorem substitute?_valueText_of_balanced {holds : String → Bool} {f : Formula String}
    (hp : ∀ a ∈ f.leaves, Balanced a.toList)
    (hd : ∀ a ∈ f.asked holds, ',' ∉ a.toList ∧ e.Decides pending a (holds a))
    {ifTrue ifFalse : String} (ht : Balanced ifTrue.toList) (hf : Balanced ifFalse.toList) :
    Padded (e.substitute? pending (f.valueText ifTrue ifFalse).toList)
      (e.substitute? pending (if f.eval holds then ifTrue else ifFalse).toList) := by
  induction f generalizing ifTrue ifFalse with
  | leaf id =>
    obtain ⟨hc, hdecides⟩ := hd id (by simp [Formula.asked])
    exact substitute?_valueText_leaf (hp id (by simp [Formula.leaves])) hc ht hf hdecides
  | and l r ihl ihr =>
    have hr : ∀ a ∈ r.leaves, Balanced a.toList := fun a ha => hp a (by simp [Formula.leaves, ha])
    refine (ihl (fun a ha => hp a (by simp [Formula.leaves, ha]))
      (fun a ha => hd a (by simp [Formula.asked, ha]))
      (Formula.balanced_valueText hr ht hf) hf).trans ?_
    rw [Formula.eval]
    cases hl : l.eval holds with
    | true => exact ihr hr (fun a ha => hd a (by simp [Formula.asked, hl, ha])) ht hf
    | false => exact .refl _
  | or l r ihl ihr =>
    have hr : ∀ a ∈ r.leaves, Balanced a.toList := fun a ha => hp a (by simp [Formula.leaves, ha])
    refine (ihl (fun a ha => hp a (by simp [Formula.leaves, ha]))
      (fun a ha => hd a (by simp [Formula.asked, ha])) ht
      (Formula.balanced_valueText hr ht hf)).trans ?_
    rw [Formula.eval]
    cases hl : l.eval holds with
    | true => exact .refl _
    | false => exact ihr hr (fun a ha => hd a (by simp [Formula.asked, hl, ha])) ht hf
  | not g ih =>
    have := ih hp hd hf ht
    rw [Formula.eval]
    cases hg : g.eval holds <;> simpa [Formula.valueText, hg] using this

/-- Plain ids can be asked for. -/
theorem substitute?_valueText {holds : String → Bool} {f : Formula String}
    (hp : ∀ a ∈ f.leaves, IsPlain a) (hd : ∀ a ∈ f.asked holds, e.Decides pending a (holds a))
    {ifTrue ifFalse : String} (ht : Balanced ifTrue.toList) (hf : Balanced ifFalse.toList) :
    Padded (e.substitute? pending (f.valueText ifTrue ifFalse).toList)
      (e.substitute? pending (if f.eval holds then ifTrue else ifFalse).toList) :=
  substitute?_valueText_of_balanced (fun a ha => (hp a ha).balanced)
    (fun a ha => ⟨(hp a (Formula.mem_leaves_of_asked ha)).isName.comma, hd a ha⟩) ht hf

end Element

end VarLogic
