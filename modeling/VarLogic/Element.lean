/-
Custom properties on one element. A property that is not declared, or declared
as `initial`, has no value. A reference `var(--x, F)` stands for the value of
`--x`, or for `F` if there is none, and a reference without a fallback to a
property without a value leaves the whole text without a value. So does a
property for itself: while its value is being worked out it has none.
-/
import VarLogic.Sheet.Basic
import VarLogic.Text.Blank

namespace VarLogic

structure Element where
  /-- What is declared, the declaration that wins before those it wins over. -/
  declared : List (String × String)

namespace Element

/-- An element under a sheet: the `*` block first, then the rules of the hooks
that match, then the inline declarations; the last declaration wins. -/
def ofSheet (sheet : Sheet) (inline : List Declaration) (isActive : Hook → Bool) : Element where
  declared :=
    (sheet.defaults ++ (sheet.rules.filter (isActive ·.hook)).flatMap (·.declarations) ++ inline)
      |>.reverse.map fun d => (d.property, d.value)

/-! ## References in texts -/

/-- Leaves out the blanks at both ends. -/
def trim (cs : List Char) : List Char :=
  ((cs.dropWhile Text.isBlank).reverse.dropWhile Text.isBlank).reverse

/-- The text before the first `var(`, and the text after it. -/
def splitReference? : List Char → Option (List Char × List Char)
  | 'v' :: 'a' :: 'r' :: '(' :: cs => some ([], cs)
  | c :: cs => (splitReference? cs).map fun (front, rest) => (c :: front, rest)
  | [] => none

/-- Splits a text at the parenthesis that closes one which is open before it;
so many others are open as well. -/
def splitClose? : Nat → List Char → Option (List Char × List Char)
  | _, [] => none
  | others, c :: cs =>
    if c = '(' then (splitClose? (others + 1) cs).map fun (body, rest) => (c :: body, rest)
    else if c = ')' then
      match others with
      | 0 => some ([], cs)
      | others + 1 => (splitClose? others cs).map fun (body, rest) => (c :: body, rest)
    else (splitClose? others cs).map fun (body, rest) => (c :: body, rest)

/-- The first reference in a text, with what stands around it. -/
structure Reference where
  front : List Char
  name : String
  fallback : Option (List Char)
  rest : List Char

/-- What stands in the parentheses: a name, and a fallback behind a comma. -/
def Reference.ofBody (front body rest : List Char) : Reference where
  front
  name := String.ofList (trim (body.takeWhile (· ≠ ',')))
  fallback := match body.dropWhile (· ≠ ',') with
    | [] => none
    | _ :: fallback => some fallback
  rest

/-- A text before its first reference is judged. -/
inductive Shape where
  /-- There is no reference in it. -/
  | plain
  /-- Its first reference is not closed. -/
  | unclosed
  | reference (r : Reference)

/-- The shape of a text. -/
def Shape.ofText (text : List Char) : Shape :=
  match splitReference? text with
  | none => .plain
  | some (front, after) =>
    match splitClose? 0 after with
    | none => .unclosed
    | some (body, rest) => .reference (.ofBody front body rest)

theorem splitReference?_length {cs front rest : List Char}
    (h : splitReference? cs = some (front, rest)) : front.length + rest.length + 4 = cs.length := by
  induction cs using splitReference?.induct generalizing front rest with
  | case1 cs =>
    simp only [splitReference?, Option.some.injEq, Prod.mk.injEq] at h
    obtain ⟨rfl, rfl⟩ := h
    simp
  | case2 c cs hne ih =>
    rw [splitReference?.eq_2 _ _ hne] at h
    simp only [Option.map_eq_some_iff, Prod.mk.injEq] at h
    obtain ⟨⟨f, r⟩, hr, rfl, rfl⟩ := h
    have := ih hr
    simp only [List.length_cons]; omega
  | case3 => simp [splitReference?] at h

theorem splitClose?_length {others : Nat} {cs body rest : List Char}
    (h : splitClose? others cs = some (body, rest)) : body.length + rest.length < cs.length := by
  fun_induction splitClose? others cs generalizing body rest with
  | case1 => cases h
  | case2 others cs ih =>
    simp only [Option.map_eq_some_iff, Prod.mk.injEq] at h
    obtain ⟨⟨b, r⟩, hr, rfl, rfl⟩ := h
    have := ih hr
    simp only [List.length_cons]; omega
  | case3 cs =>
    simp only [Option.some.injEq, Prod.mk.injEq] at h
    obtain ⟨rfl, rfl⟩ := h
    simp
  | case4 cs others _ ih =>
    simp only [Option.map_eq_some_iff, Prod.mk.injEq] at h
    obtain ⟨⟨b, r⟩, hr, rfl, rfl⟩ := h
    have := ih hr
    simp only [List.length_cons]; omega
  | case5 others c cs _ _ ih =>
    simp only [Option.map_eq_some_iff, Prod.mk.injEq] at h
    obtain ⟨⟨b, r⟩, hr, rfl, rfl⟩ := h
    have := ih hr
    simp only [List.length_cons]; omega

theorem Shape.length_of_reference {text : List Char} {r : Reference}
    (h : Shape.ofText text = .reference r) :
    r.rest.length < text.length ∧ ∀ f, r.fallback = some f → f.length < text.length := by
  unfold Shape.ofText at h
  split at h
  · cases h
  · rename_i front after hs
    split at h
    · cases h
    · rename_i body rest hc
      have hs := splitReference?_length hs
      have hc := splitClose?_length hc
      cases h
      refine ⟨by simp only [Reference.ofBody]; omega, fun f hf => ?_⟩
      simp only [Reference.ofBody] at hf
      split at hf
      · cases hf
      · rename_i c cs hd
        cases hf
        have := (List.dropWhile_suffix (· ≠ ',') (l := body)).length_le
        rw [hd, List.length_cons] at this
        omega

/-! ## Values -/

/-- Whether a declared value stands for no value. -/
def isInitial (raw : String) : Bool := trim raw.toList == "initial".toList

/-- How many declarations are of properties not being worked out. -/
def free (e : Element) (pending : List String) : Nat :=
  e.declared.countP (·.1 ∉ pending)

theorem free_lt {e : Element} {pending : List String} {name raw : String}
    (hn : name ∉ pending) (hl : e.declared.lookup name = some raw) :
    e.free (name :: pending) < e.free pending := by
  obtain ⟨ds⟩ := e
  simp only [free] at hl ⊢
  induction ds with
  | nil => simp at hl
  | cons d ds ih =>
    obtain ⟨key, value⟩ := d
    have hle : ds.countP (·.1 ∉ name :: pending) ≤ ds.countP (·.1 ∉ pending) :=
      List.countP_mono_left fun d _ h => by simp_all
    simp only [List.countP_cons]
    by_cases hk : key = name
    · subst hk
      simp only [List.mem_cons, true_or, not_true_eq_false, decide_false, Bool.false_eq_true,
        ↓reduceIte, hn, not_false_eq_true, decide_true] at hle ⊢
      omega
    · have hb : (name == key) = false := by simpa using fun h => hk h.symm
      simp only [List.lookup_cons, hb] at hl
      have := ih hl
      by_cases hp : key ∈ pending <;> simp_all

mutual

/-- The value of a property while the properties `pending` are being worked
out. -/
def computed? (e : Element) (pending : List String) (name : String) : Option (List Char) :=
  if _hn : name ∈ pending then none
  else match _hl : e.declared.lookup name with
    | none => none
    | some raw => if isInitial raw then none else substitute? e (name :: pending) raw.toList
termination_by (e.free pending, 0)
decreasing_by exact Prod.Lex.left _ _ (free_lt _hn _hl)

/-- A text with its references replaced by what they stand for. -/
def substitute? (e : Element) (pending : List String) (text : List Char) : Option (List Char) :=
  match _h : Shape.ofText text with
  | .plain => some text
  | .unclosed => none
  | .reference r =>
    let value :=
      match computed? e pending r.name with
      | some value => some value
      | none =>
        match _hf : r.fallback with
        | none => none
        | some fallback => substitute? e pending fallback
    match value with
    | none => none
    | some value => (substitute? e pending r.rest).map fun rest => r.front ++ value ++ rest
termination_by (e.free pending, text.length + 1)
decreasing_by
  all_goals refine Prod.Lex.right _ ?_
  · omega
  · have := (Shape.length_of_reference _h).2 _ _hf; omega
  · have := (Shape.length_of_reference _h).1; omega

end

/-- The value of a property. -/
def value? (e : Element) (name : String) : Option String :=
  (e.computed? [] name).map String.ofList

/-- The words of a text, with one space between them. -/
def collapse (cs : List Char) : String :=
  String.intercalate " " (((cs.splitOnP Text.isBlank).filter (!·.isEmpty)).map String.ofList)

/-- The text that a property other than a custom one takes as its value. -/
def resolve? (e : Element) (text : String) : Option String :=
  (e.substitute? [] text.toList).map collapse

/-- The state of a toggle: on or off, and nothing while not exactly one side of
its pair has a value. -/
def toggle? (e : Element) (id : String) : Option Bool :=
  match e.value? (Toggle.property id false), e.value? (Toggle.property id true) with
  | some _, none => some true
  | none, some _ => some false
  | _, _ => none

end Element

end VarLogic
