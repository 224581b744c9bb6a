/-
What declarations refer to. A text mentions the names behind its `var(`, also
those in fallbacks (`mentioned`). Where every declaration of a list mentions
only properties declared before it (`InOrder`) and no property is declared
twice, no property depends on itself, not even through others
(`acyclic_of_inOrder`).
-/
import VarLogic.Proofs.Network
import Mathlib.Data.List.Basic
import Mathlib.Logic.Relation

namespace VarLogic

/-! ## Texts -/

namespace Element

/-- The names in the references of a text: what stands between `var(` and the
next comma or closing parenthesis. -/
def mentioned : List Char → List String
  | 'v' :: 'a' :: 'r' :: '(' :: cs =>
    String.ofList (trim (cs.takeWhile fun c => c ≠ ',' && c ≠ ')')) :: mentioned cs
  | _ :: cs => mentioned cs
  | [] => []

theorem mentioned_cons {c : Char} (hc : c ≠ 'v') (cs : List Char) :
    mentioned (c :: cs) = mentioned cs :=
  mentioned.eq_2 _ _ fun _ h _ => hc h

/-- A text without a parenthesis mentions nothing, unless it is the start of a
reference. -/
theorem mentioned_append {cs : List Char} (hcs : ∀ d ∈ cs, d ≠ '(') {c : Char}
    (ha : c ≠ 'a') (hr : c ≠ 'r') (hp : c ≠ '(') (rest : List Char) :
    mentioned (cs ++ c :: rest) = mentioned (c :: rest) := by
  induction cs with
  | nil => rfl
  | cons d ds ih =>
    rw [List.cons_append, mentioned.eq_2, ih fun x hx => hcs x (by simp [hx])]
    intro _ _ he
    match ds, hcs with
    | [], _ => exact ha (List.cons.inj he).1
    | [_], _ => exact hr (List.cons.inj (List.cons.inj he).2).1
    | [_, _], _ => exact hp (List.cons.inj (List.cons.inj (List.cons.inj he).2).2).1
    | _ :: _ :: z :: _, hcs =>
      exact hcs z (by simp) (List.cons.inj (List.cons.inj (List.cons.inj he).2).2).1

/-- A reference mentions the name it starts with. -/
theorem mentioned_reference {name : String} (hn : IsPlain name) {c : Char} (hc : c = ',' ∨ c = ')')
    (rest : List Char) :
    mentioned ('v' :: 'a' :: 'r' :: '(' :: (name.toList ++ c :: rest)) = name :: mentioned rest := by
  have hname : ∀ d ∈ name.toList, (d ≠ ',' && d ≠ ')') = true := fun d hd => by
    simpa using ⟨(hn d hd).2.2.1, (hn d hd).2.1⟩
  have htrim : trim name.toList = name.toList := trim_eq_self fun d hd => (hn d hd).2.2.2
  have hrest : mentioned (name.toList ++ c :: rest) = mentioned rest := by
    rw [mentioned_append (fun d hd => (hn d hd).1)] <;> rcases hc with rfl | rfl
    any_goals decide
    all_goals exact mentioned_cons (by decide) rest
  rw [mentioned, List.takeWhile_append_of_pos hname, hrest]
  rcases hc with rfl | rfl <;> simp [htrim]

end Element

open Element (IsPlain mentioned mentioned_cons mentioned_reference)

namespace Toggle

theorem mentioned_toList_reference {a : String} (ha : IsPlain a) (x : Bool) (rest : List Char) :
    mentioned ((reference a x).toList ++ rest) = property a x :: mentioned rest := by
  rw [toList_reference]
  simpa using mentioned_reference (isPlain_property ha x) (.inr rfl) rest

/-! What the texts of a node mention. -/

variable {a b : String} (ha : IsPlain a) (hb : IsPlain b) (x y : Bool)
include ha

theorem mentioned_one : mentioned (reference a x).toList = [property a x] := by
  simpa [mentioned] using mentioned_toList_reference ha x []

include hb

theorem mentioned_both :
    mentioned (reference a x ++ " " ++ reference b y).toList = [property a x, property b y] := by
  have htext : (reference a x ++ " " ++ reference b y).toList =
      (reference a x).toList ++ ' ' :: (reference b y).toList := by simp
  rw [htext, mentioned_toList_reference ha, mentioned_cons (by decide), mentioned_one hb]

theorem mentioned_either :
    mentioned (referenceOr a x (reference b y)).toList = [property a x, property b y] := by
  have hrest : mentioned ((' ' :: (reference b y).toList) ++ [')']) = [property b y] := by
    rw [List.cons_append, mentioned_cons (by decide), mentioned_toList_reference hb]
    rfl
  rw [toList_referenceOr, mentioned_reference (isPlain_property ha x) (.inl rfl), hrest]

end Toggle

/-! ## Lists of declarations -/

/-- The properties that the value of a declaration refers to. -/
def Declaration.mentioned (d : Declaration) : List String := Element.mentioned d.value.toList

/-- Every declaration mentions only properties in `known` and properties
declared before it. -/
def InOrder (known : List String) : List Declaration → Prop
  | [] => True
  | d :: ds => (∀ p ∈ d.mentioned, p ∈ known) ∧ InOrder (known ++ [d.property]) ds

namespace InOrder

variable {known known' : List String} {as bs : List Declaration}

theorem append : InOrder known (as ++ bs) ↔
    InOrder known as ∧ InOrder (known ++ as.map (·.property)) bs := by
  induction as generalizing known with
  | nil => simp [InOrder]
  | cons a as ih => simp [InOrder, ih, and_assoc]

theorem mono (h : InOrder known as) (hk : ∀ p ∈ known, p ∈ known') : InOrder known' as := by
  induction as generalizing known known' with
  | nil => trivial
  | cons a as ih =>
    refine ⟨fun p hp => hk p (h.1 p hp), ih h.2 fun p hp => ?_⟩
    rw [List.mem_append] at hp ⊢
    exact hp.imp_left (hk p)

theorem of_mentioned_eq_nil (h : ∀ d ∈ as, d.mentioned = []) : InOrder known as := by
  induction as generalizing known with
  | nil => trivial
  | cons a as ih =>
    exact ⟨by simp [h a (by simp)], ih fun d hd => h d (by simp [hd])⟩

theorem mem_before {front rest : List Declaration} {d : Declaration}
    (h : InOrder known (front ++ d :: rest)) {p : String} (hp : p ∈ d.mentioned) :
    p ∈ known ++ front.map (·.property) :=
  (append.1 h).2.1 p hp

theorem of_before (h : ∀ front d rest, as = front ++ d :: rest →
    ∀ p ∈ d.mentioned, p ∈ known ++ front.map (·.property)) : InOrder known as := by
  induction as generalizing known with
  | nil => trivial
  | cons a as ih =>
    refine ⟨by simpa using h [] a as rfl, ih fun front d rest he p hp => ?_⟩
    simpa using h (a :: front) d rest (by rw [he]; rfl) p hp

end InOrder

/-! ## Elements -/

/-- What is declared for `p` mentions `q`. -/
def Element.Refers (e : Element) (p q : String) : Prop :=
  ∃ raw, e.declared.lookup p = some raw ∧ q ∈ mentioned raw.toList

/-- **No property depends on itself** where all references are declared in
order. -/
theorem Element.acyclic_of_inOrder {e : Element} {ds : List Declaration} (h : InOrder [] ds)
    (hn : (ds.map (·.property)).Nodup)
    (he : ∀ p q, e.Refers p q → ∃ d ∈ ds, d.property = p ∧ q ∈ d.mentioned) (p : String) :
    ¬ Relation.TransGen e.Refers p p := by
  -- A property comes after all that it depends on.
  have step : ∀ {p q}, e.Refers p q →
      (ds.map (·.property)).idxOf q < (ds.map (·.property)).idxOf p := by
    intro p q hr
    obtain ⟨d, hd, rfl, hq⟩ := he p q hr
    obtain ⟨front, rest, rfl⟩ := List.append_of_mem hd
    have hq : q ∈ front.map (·.property) := by simpa using h.mem_before hq
    rw [List.map_append, List.map_cons] at hn ⊢
    have hp : d.property ∉ front.map (·.property) := fun hm =>
      (List.nodup_append.1 hn).2.2 _ hm _ (by simp) rfl
    rw [List.idxOf_append_of_mem hq, List.idxOf_append_of_notMem hp]
    exact Nat.lt_add_right _ (List.idxOf_lt_length_of_mem hq)
  have run : ∀ {p q}, Relation.TransGen e.Refers p q →
      (ds.map (·.property)).idxOf q < (ds.map (·.property)).idxOf p := by
    intro p q hr
    induction hr with
    | single h => exact step h
    | tail _ h ih => exact (step h).trans ih
  exact fun hp => lt_irrefl _ (run hp)

end VarLogic
