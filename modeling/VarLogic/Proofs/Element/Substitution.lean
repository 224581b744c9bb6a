/-
Substitution of references, one reference at a time. A text without `var(`
stands for itself (`substitute?_plain`); a character that opens no reference
stays where it is (`substitute?_cons`); a text that starts with a reference
is decided by the property it names (`substitute?_reference`), or else by its
fallback, which may be any text with balanced parentheses
(`substitute?_referenceOr`).
-/
import VarLogic.Element
import Mathlib.Data.List.TakeWhile

namespace VarLogic.Element

/-! ## Texts -/

/-- Every parenthesis has its partner. -/
inductive Balanced : List Char → Prop where
  | nil : Balanced []
  | cons {c : Char} {cs : List Char} : c ≠ '(' → c ≠ ')' → Balanced cs → Balanced (c :: cs)
  | group {inner rest : List Char} :
      Balanced inner → Balanced rest → Balanced ('(' :: (inner ++ ')' :: rest))

theorem Balanced.append {as bs : List Char} (ha : Balanced as) (hb : Balanced bs) :
    Balanced (as ++ bs) := by
  induction ha with
  | nil => exact hb
  | cons h₁ h₂ _ ih => exact .cons h₁ h₂ ih
  | group hi _ _ ih => simpa using Balanced.group hi ih

/-- Somewhere in the text stands `var(`. -/
def HasReference (cs : List Char) : Prop := ['v', 'a', 'r', '('] <:+: cs

/-- A name that reads the same inside a reference: no parenthesis, no comma and
no blank. -/
def IsPlain (name : String) : Prop :=
  ∀ c ∈ name.toList, c ≠ '(' ∧ c ≠ ')' ∧ c ≠ ',' ∧ Text.isBlank c = false

theorem balanced_of_not_mem {cs : List Char} (ho : '(' ∉ cs) (hc : ')' ∉ cs) : Balanced cs := by
  induction cs with
  | nil => exact .nil
  | cons c cs ih =>
    rw [List.mem_cons, not_or] at ho hc
    exact .cons (Ne.symm ho.1) (Ne.symm hc.1) (ih ho.2 hc.2)

theorem IsPlain.balanced {name : String} (h : IsPlain name) : Balanced name.toList :=
  balanced_of_not_mem (fun ho => (h _ ho).1 rfl) fun hc => (h _ hc).2.1 rfl

theorem IsPlain.not_hasReference {name : String} (h : IsPlain name) :
    ¬ HasReference name.toList := fun hr => (h '(' (hr.subset (by simp))).1 rfl

theorem splitReference?_eq_none {cs : List Char} (h : ¬ HasReference cs) :
    splitReference? cs = none := by
  unfold HasReference at h
  induction cs using splitReference?.induct with
  | case1 cs => exact absurd ⟨[], cs, rfl⟩ h
  | case2 c cs hne ih =>
    rw [splitReference?.eq_2 _ _ hne, ih fun hi => h (List.infix_cons hi)]
    rfl
  | case3 => rfl

theorem splitClose?_open (others : Nat) (cs : List Char) :
    splitClose? others ('(' :: cs) =
      (splitClose? (others + 1) cs).map fun (body, rest) => ('(' :: body, rest) := by
  simp [splitClose?.eq_def others ('(' :: cs)]

theorem splitClose?_close (others : Nat) (cs : List Char) :
    splitClose? (others + 1) (')' :: cs) =
      (splitClose? others cs).map fun (body, rest) => (')' :: body, rest) := by
  simp [splitClose?.eq_def (others + 1) (')' :: cs)]

theorem splitClose?_other {c : Char} (h₁ : c ≠ '(') (h₂ : c ≠ ')') (others : Nat)
    (cs : List Char) :
    splitClose? others (c :: cs) = (splitClose? others cs).map fun (body, rest) => (c :: body, rest) := by
  simp [splitClose?.eq_def others (c :: cs), h₁, h₂]

/-- A balanced text does not close what is open before it. -/
theorem splitClose?_append {others : Nat} {body rest : List Char} (h : Balanced body) :
    splitClose? others (body ++ rest) =
      (splitClose? others rest).map fun (b, r) => (body ++ b, r) := by
  induction h generalizing others rest with
  | nil => simp
  | cons h₁ h₂ _ ih =>
    rw [List.cons_append, splitClose?_other h₁ h₂, ih]
    cases splitClose? others rest <;> rfl
  | @group inner tail _ _ ihi ihr =>
    rw [List.cons_append, List.append_assoc, List.cons_append, splitClose?_open, ihi,
      splitClose?_close, ihr]
    cases splitClose? others rest <;> simp

theorem trim_eq_self {cs : List Char} (h : ∀ c ∈ cs, Text.isBlank c = false) : trim cs = cs := by
  have drop : ∀ {ds : List Char}, (∀ c ∈ ds, Text.isBlank c = false) →
      ds.dropWhile Text.isBlank = ds := fun {ds} hds => by
    cases ds with
    | nil => rfl
    | cons d ds => simp [hds d (by simp)]
  rw [trim, drop h, drop (by simpa using h), List.reverse_reverse]

/-- A name that reads the same inside a reference, whatever else is in it: no
parenthesis without its partner, no comma, and no blank at either end. -/
structure IsName (name : String) : Prop where
  balanced : Balanced name.toList
  comma : ',' ∉ name.toList
  trimmed : trim name.toList = name.toList

theorem IsPlain.isName {name : String} (h : IsPlain name) : IsName name where
  balanced := h.balanced
  comma := fun hc => (h ',' hc).2.2.1 rfl
  trimmed := trim_eq_self fun c hc => (h c hc).2.2.2

/-- Blanks inside a text are kept. -/
theorem trim_of_ends {c d : Char} (hc : Text.isBlank c = false) (hd : Text.isBlank d = false)
    (cs : List Char) : trim (c :: (cs ++ [d])) = c :: (cs ++ [d]) := by
  rw [trim, List.dropWhile_cons_of_neg (by simp [hc]), List.reverse_cons, List.reverse_append,
    List.reverse_singleton, List.singleton_append, List.cons_append,
    List.dropWhile_cons_of_neg (by simp [hd])]
  simp

theorem shape_reference {name : String} {fallback rest : List Char} (hn : IsName name)
    (hf : Balanced fallback) :
    Shape.ofText ('v' :: 'a' :: 'r' :: '(' :: (name.toList ++ ',' :: (fallback ++ ')' :: rest))) =
      .reference ⟨[], name, some fallback, rest⟩ := by
  have hbody : Balanced (name.toList ++ ',' :: fallback) :=
    hn.balanced.append (.cons (by decide) (by decide) hf)
  have hclose : splitClose? 0 (name.toList ++ ',' :: (fallback ++ ')' :: rest)) =
      some (name.toList ++ ',' :: fallback, rest) := by
    rw [← List.cons_append, ← List.append_assoc, splitClose?_append hbody]
    simp [splitClose?]
  have hname : ∀ c ∈ name.toList, decide (c ≠ ',') = true := fun c hc => by
    rw [decide_eq_true_eq]
    rintro rfl
    exact hn.comma hc
  rw [Shape.ofText, splitReference?]
  simp only [hclose, Reference.ofBody, List.takeWhile_append_of_pos hname,
    List.dropWhile_append_of_pos hname]
  simp [hn.trimmed]

theorem shape_reference_bare {name : String} {rest : List Char} (hn : IsPlain name) :
    Shape.ofText ('v' :: 'a' :: 'r' :: '(' :: (name.toList ++ ')' :: rest)) =
      .reference ⟨[], name, none, rest⟩ := by
  have hclose : splitClose? 0 (name.toList ++ ')' :: rest) = some (name.toList, rest) := by
    rw [splitClose?_append hn.balanced]
    simp [splitClose?]
  have hname : ∀ c ∈ name.toList, decide (c ≠ ',') = true := fun c hc => by
    simpa using (hn c hc).2.2.1
  have htake : name.toList.takeWhile (decide <| · ≠ ',') = name.toList :=
    List.takeWhile_eq_self_iff.2 hname
  have hdrop : name.toList.dropWhile (decide <| · ≠ ',') = [] := List.dropWhile_eq_nil_iff.2 hname
  rw [Shape.ofText, splitReference?]
  simp only [hclose, Reference.ofBody, htake, hdrop]
  simp [trim_eq_self fun c hc => (hn c hc).2.2.2]

/-! ## Substitution -/

variable {e : Element} {pending : List String}

theorem substitute?_of_plain {text : List Char} (h : Shape.ofText text = .plain) :
    e.substitute? pending text = some text := by
  rw [substitute?]
  split <;> simp_all

theorem substitute?_of_unclosed {text : List Char} (h : Shape.ofText text = .unclosed) :
    e.substitute? pending text = none := by
  rw [substitute?]
  split <;> simp_all

theorem substitute?_of_reference {text : List Char} {r : Reference}
    (h : Shape.ofText text = .reference r) :
    e.substitute? pending text =
      ((e.computed? pending r.name).or (r.fallback.bind (e.substitute? pending))).bind fun value =>
        (e.substitute? pending r.rest).map fun rest => r.front ++ value ++ rest := by
  rw [substitute?]
  split
  · simp_all
  · simp_all
  · rename_i r' h'
    rw [h] at h'
    cases h'
    cases hv : e.computed? pending r.name with
    | some value => rfl
    | none =>
      cases hf : r.fallback with
      | none => rfl
      | some fallback =>
        simp only [Option.none_or, Option.bind_some]
        cases e.substitute? pending fallback <;> rfl

theorem substitute?_plain {text : List Char} (h : ¬ HasReference text) :
    e.substitute? pending text = some text :=
  substitute?_of_plain (by rw [Shape.ofText, splitReference?_eq_none h])

theorem substitute?_nil : e.substitute? pending [] = some [] :=
  substitute?_plain (by simp [HasReference])

/-- The shape of a text with a character more in front. -/
def Shape.cons (c : Char) : Shape → Shape
  | plain => plain
  | unclosed => unclosed
  | reference r => reference { r with front := c :: r.front }

theorem Shape.ofText_cons {c : Char} (hc : c ≠ 'v') (text : List Char) :
    ofText (c :: text) = (ofText text).cons c := by
  have hs : splitReference? (c :: text) =
      (splitReference? text).map fun (front, rest) => (c :: front, rest) :=
    splitReference?.eq_2 _ _ fun _ h _ => hc h
  rw [ofText, ofText, hs]
  cases splitReference? text with
  | none => rfl
  | some p =>
    simp only [Option.map_some]
    cases splitClose? 0 p.2 <;> rfl

/-- A character that does not start a reference stays. -/
theorem substitute?_cons {c : Char} (hc : c ≠ 'v') (text : List Char) :
    e.substitute? pending (c :: text) = (e.substitute? pending text).map (c :: ·) := by
  have hshape := Shape.ofText_cons hc text
  cases ht : Shape.ofText text with
  | plain =>
    rw [ht] at hshape
    rw [substitute?_of_plain ht, substitute?_of_plain hshape, Option.map_some]
  | unclosed =>
    rw [ht] at hshape
    rw [substitute?_of_unclosed ht, substitute?_of_unclosed hshape, Option.map_none]
  | reference r =>
    rw [ht] at hshape
    rw [substitute?_of_reference ht, substitute?_of_reference hshape]
    cases (e.computed? pending r.name).or (r.fallback.bind (e.substitute? pending)) with
    | none => rfl
    | some value => cases e.substitute? pending r.rest <;> rfl

/-- A reference without a fallback stands for the value of its property. -/
theorem substitute?_reference {name : String} (hn : IsPlain name) (rest : List Char) :
    e.substitute? pending ('v' :: 'a' :: 'r' :: '(' :: (name.toList ++ ')' :: rest)) =
      (e.computed? pending name).bind fun value =>
        (e.substitute? pending rest).map fun rest => value ++ rest := by
  rw [substitute?_of_reference (shape_reference_bare hn)]
  simp

/-- A reference with a fallback stands for the fallback where its property has
no value. -/
theorem substitute?_referenceOr {name : String} {fallback : List Char} (hn : IsName name)
    (hf : Balanced fallback) (rest : List Char) :
    e.substitute? pending
        ('v' :: 'a' :: 'r' :: '(' :: (name.toList ++ ',' :: (fallback ++ ')' :: rest))) =
      ((e.computed? pending name).or (e.substitute? pending fallback)).bind fun value =>
        (e.substitute? pending rest).map fun rest => value ++ rest := by
  rw [substitute?_of_reference (shape_reference hn hf)]
  simp

/-! ## Properties -/

theorem computed?_of_pending {name : String} (hp : name ∈ pending) :
    e.computed? pending name = none := by
  rw [computed?, dif_pos hp]

theorem computed?_of_undeclared {name : String} (hl : e.declared.lookup name = none) :
    e.computed? pending name = none := by
  rw [computed?]
  split
  · rfl
  · split <;> simp_all

theorem computed?_of_initial {name raw : String} (hl : e.declared.lookup name = some raw)
    (hi : isInitial raw = true) : e.computed? pending name = none := by
  rw [computed?]
  split
  · rfl
  · split
    · rfl
    · simp_all

theorem computed?_of_declared {name raw : String} (hp : name ∉ pending)
    (hl : e.declared.lookup name = some raw) (hi : isInitial raw = false) :
    e.computed? pending name = e.substitute? (name :: pending) raw.toList := by
  rw [computed?]
  split
  · contradiction
  · split <;> simp_all

end VarLogic.Element
