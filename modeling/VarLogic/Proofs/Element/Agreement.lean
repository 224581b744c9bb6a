/-
What a value depends on. A text stands for the same on two elements if the
properties its references ask for do (`substitute?_congr`); and a property has
the same value on both if they declare the same for it, for what that asks for,
and so on (`computed?_congr`). What a network asks for is what it mentions
(`tidy_network`).
-/
import VarLogic.Proofs.Element.References

namespace VarLogic

namespace Element

/-! ## Texts -/

/-- The properties that a text asks for: those its references name, and what
the fallbacks ask for. -/
def asked (text : List Char) : List String :=
  match _h : Shape.ofText text with
  | .plain => []
  | .unclosed => []
  | .reference r =>
    r.name :: ((match _hf : r.fallback with
      | none => []
      | some fallback => asked fallback) ++ asked r.rest)
termination_by text.length
decreasing_by
  · exact (Shape.length_of_reference _h).2 _ _hf
  · exact (Shape.length_of_reference _h).1

theorem asked_of_plain {text : List Char} (h : Shape.ofText text = .plain) : asked text = [] := by
  rw [asked]
  split <;> simp_all

theorem asked_of_unclosed {text : List Char} (h : Shape.ofText text = .unclosed) :
    asked text = [] := by
  rw [asked]
  split <;> simp_all

theorem asked_of_reference {text : List Char} {r : Reference}
    (h : Shape.ofText text = .reference r) :
    asked text = r.name :: (r.fallback.elim [] asked ++ asked r.rest) := by
  rw [asked]
  split
  · simp_all
  · simp_all
  · rename_i r' h'
    rw [h] at h'
    cases h'
    cases r.fallback <;> rfl

theorem asked_plain {text : List Char} (h : ¬ HasReference text) : asked text = [] :=
  asked_of_plain (by rw [Shape.ofText, splitReference?_eq_none h])

theorem asked_cons {c : Char} (hc : c ≠ 'v') (text : List Char) : asked (c :: text) = asked text := by
  have hshape := Shape.ofText_cons hc text
  cases ht : Shape.ofText text with
  | plain => rw [ht] at hshape; rw [asked_of_plain ht, asked_of_plain hshape]
  | unclosed => rw [ht] at hshape; rw [asked_of_unclosed ht, asked_of_unclosed hshape]
  | reference r => rw [ht] at hshape; rw [asked_of_reference ht, asked_of_reference hshape]

variable {e e' : Element} {pending : List String}

/-- A text stands for the same wherever what it asks for has the same values. -/
theorem substitute?_congr {text : List Char}
    (h : ∀ p ∈ asked text, e.computed? pending p = e'.computed? pending p) :
    e.substitute? pending text = e'.substitute? pending text := by
  induction hlength : text.length using Nat.strong_induction_on generalizing text with
  | _ length ih =>
  cases hs : Shape.ofText text with
  | plain => rw [substitute?_of_plain hs, substitute?_of_plain hs]
  | unclosed => rw [substitute?_of_unclosed hs, substitute?_of_unclosed hs]
  | reference r =>
    obtain ⟨hrest, hfallback⟩ := Shape.length_of_reference hs
    rw [asked_of_reference hs] at h
    have hname := h r.name (by simp)
    have hbehind : e.substitute? pending r.rest = e'.substitute? pending r.rest :=
      ih _ (hlength ▸ hrest) (fun p hp => h p (by simp [hp])) rfl
    have hinstead : r.fallback.bind (e.substitute? pending) =
        r.fallback.bind (e'.substitute? pending) := by
      cases hf : r.fallback with
      | none => rfl
      | some fallback =>
        exact ih _ (hlength ▸ hfallback _ hf) (fun p hp => h p (by simp [hf, hp])) rfl
    rw [substitute?_of_reference hs, substitute?_of_reference hs, hname, hbehind, hinstead]

/-! ## Properties -/

/-- **Values agree where declarations do.** Two elements that declare the same
for some properties, which ask for each other only, have the same values for
them. -/
theorem computed?_congr {names : List String}
    (hl : ∀ p ∈ names, e.declared.lookup p = e'.declared.lookup p)
    (hc : ∀ p ∈ names, ∀ raw, e.declared.lookup p = some raw → ∀ q ∈ asked raw.toList, q ∈ names)
    {p : String} (hp : p ∈ names) : e.computed? pending p = e'.computed? pending p := by
  -- Below a property, there are fewer declarations that are not being worked out.
  induction hfree : e.free pending using Nat.strong_induction_on generalizing pending p with
  | _ free ih =>
  by_cases hpending : p ∈ pending
  · rw [computed?_of_pending hpending, computed?_of_pending hpending]
  cases hraw : e.declared.lookup p with
  | none =>
    rw [computed?_of_undeclared hraw, computed?_of_undeclared ((hl p hp).symm.trans hraw)]
  | some raw =>
    have hraw' := (hl p hp).symm.trans hraw
    cases hi : isInitial raw with
    | true => rw [computed?_of_initial hraw hi, computed?_of_initial hraw' hi]
    | false =>
      rw [computed?_of_declared hpending hraw hi, computed?_of_declared hpending hraw' hi]
      exact substitute?_congr fun q hq =>
        ih _ (hfree ▸ free_lt hpending hraw) (hc p hp raw hraw q hq) rfl

end Element

/-! ## Networks -/

open Element (IsPlain Balanced asked asked_cons)

namespace Toggle

variable {a b : String} (ha : IsPlain a) (hb : IsPlain b) (x y : Bool)
include ha

theorem asked_toList_reference (rest : List Char) :
    asked ((reference a x).toList ++ rest) = property a x :: asked rest := by
  have hshape := @Element.shape_reference_bare _ rest (isPlain_property ha x)
  rw [toList_reference]
  simpa using Element.asked_of_reference hshape

theorem asked_one : asked (reference a x).toList = [property a x] := by
  rw [← List.append_nil (reference a x).toList, asked_toList_reference ha,
    Element.asked_plain (by simp [Element.HasReference])]

include hb

theorem asked_both :
    asked (reference a x ++ " " ++ reference b y).toList = [property a x, property b y] := by
  have htext : (reference a x ++ " " ++ reference b y).toList =
      (reference a x).toList ++ ' ' :: (reference b y).toList := by simp
  rw [htext, asked_toList_reference ha, asked_cons (by decide), asked_one hb]

theorem asked_either :
    asked (referenceOr a x (reference b y)).toList = [property a x, property b y] := by
  have hfallback : Balanced (' ' :: (reference b y).toList) :=
    .cons (by decide) (by decide) (balanced_reference hb y)
  have hshape := @Element.shape_reference _ _ [] (isPlain_property ha x).isName hfallback
  rw [toList_referenceOr, Element.asked_of_reference hshape, Option.elim_some,
    asked_cons (by decide), asked_one hb, Element.asked_plain (by simp [Element.HasReference])]
  rfl

end Toggle

/-- What a declaration asks for is what it mentions. -/
def Declaration.Tidy (d : Declaration) : Prop := asked d.value.toList = d.mentioned

theorem Formula.tidy_network {f : Formula String} {id : String} (hid : IsPlain id)
    (hp : ∀ a ∈ f.leaves, IsPlain a) : ∀ d ∈ f.network id, d.Tidy := by
  induction f generalizing id with
  | leaf a => simp [network]
  | not f ih =>
    obtain ⟨-, -, hx⟩ := isPlain_below hid
    have hplain : IsPlain (f.toggle (id ++ "X")) := isPlain_toggle hx hp
    simp only [network, List.forall_mem_append, List.forall_mem_cons, List.not_mem_nil,
      false_imp_iff, implies_true, and_true, Declaration.Tidy, Declaration.mentioned,
      Toggle.asked_one hplain, Toggle.mentioned_one hplain]
    exact ih hx hp
  | and l r ihl ihr | or l r ihl ihr =>
    obtain ⟨ha, hb, -⟩ := isPlain_below hid
    have hpl : ∀ a ∈ l.leaves, IsPlain a := fun a h => hp a (by simp [leaves, h])
    have hpr : ∀ a ∈ r.leaves, IsPlain a := fun a h => hp a (by simp [leaves, h])
    have hl : IsPlain (l.toggle (id ++ "A")) := isPlain_toggle ha hpl
    have hr : IsPlain (r.toggle (id ++ "B")) := isPlain_toggle hb hpr
    simp only [network, List.forall_mem_append, List.forall_mem_cons, List.not_mem_nil,
      false_imp_iff, implies_true, and_true, Declaration.Tidy, Declaration.mentioned,
      Toggle.asked_both hl hr, Toggle.asked_either hl hr, Toggle.mentioned_both hl hr,
      Toggle.mentioned_either hl hr]
    exact ⟨ihl ha hpl, ihr hb hpr⟩

end VarLogic
