/-
Reading JSON text that was written. Without numbers in it, the compact text of a
value is read as the tree of the value, whatever follows it (`raw?_chars`), and
the value of that tree is the one that was written unless its containers lie too
deep (`value?_raw`). So two values of one text are the same (`compact_inj`).
-/
import VarLogic.Json.Written
import VarLogic.Proofs.Json.Strings

namespace VarLogic.Json

/-! ## The first character -/

/-- A value starts with a character that is neither a blank nor the end of an
array. -/
def StartsValue (cs : List Char) : Prop :=
  ∃ c rest, cs = c :: rest ∧ isSpace c = false ∧ c ≠ ']'

theorem Value.NumberFree.startsValue {v : Value} (h : v.NumberFree) (r : List Char) :
    StartsValue (v.chars ++ r) := by
  cases h with
  | null | string s | array _ | object _ => exact ⟨_, _, rfl, by decide, by decide⟩
  | boolean b => cases b <;> exact ⟨_, _, rfl, by decide, by decide⟩

theorem skip_cons {c : Char} (h : isSpace c = false) (cs : List Char) :
    skip (c :: cs) = c :: cs := by
  simp [skip, h]

theorem StartsValue.skip_eq {cs : List Char} (h : StartsValue cs) : skip cs = cs := by
  obtain ⟨c, rest, rfl, hc, -⟩ := h
  exact skip_cons hc rest

/-- A value is read as its tree, given enough fuel. -/
def Value.Reads (v : Value) : Prop :=
  ∀ fuel r, 2 * v.chars.length ≤ fuel → raw? fuel (v.chars ++ r) = some (v.raw, r)

theorem reads_string (text : String) : (Value.string text).Reads := by
  intro fuel r hfuel
  cases fuel with
  | zero => simp [Value.chars, stringChars] at hfuel
  | succ fuel =>
    simp [Value.chars, stringChars, raw?, skip_cons, isSpace, string?_written, Value.raw]

/-! ## Items -/

theorem raw?_array (fuel : Nat) {cs : List Char} (h : StartsValue cs) :
    raw? (fuel + 1) ('[' :: cs) = (rawItems? fuel cs).map fun p => (.array p.1, p.2) := by
  have hskip : skip ('[' :: cs) = '[' :: cs := skip_cons (by decide) cs
  rw [raw?, hskip]
  simp only [h.skip_eq]
  obtain ⟨c, rest, rfl, -, hne⟩ := h
  split
  · rename_i he
    exact absurd (List.cons.inj he).1 hne
  · cases rawItems? fuel (c :: rest) <;> rfl

theorem rawItems?_last {fuel : Nat} {cs r : List Char} {t : Raw}
    (h : raw? fuel cs = some (t, ']' :: r)) : rawItems? (fuel + 1) cs = some ([t], r) := by
  simp [rawItems?, h, skip_cons, isSpace]

theorem rawItems?_more {fuel : Nat} {cs rest : List Char} {t : Raw}
    (h : raw? fuel cs = some (t, ',' :: rest)) :
    rawItems? (fuel + 1) cs = (rawItems? fuel rest).map fun p => (t :: p.1, p.2) := by
  cases hi : rawItems? fuel rest <;> simp [rawItems?, h, skip_cons, isSpace, hi]

theorem rawItems?_chars {v : Value} {vs : List Value} (ih : ∀ w ∈ v :: vs, w.Reads) {fuel : Nat}
    (r : List Char) (hfuel : 2 * (itemsChars (v :: vs)).length ≤ fuel) :
    rawItems? fuel (itemsChars (v :: vs) ++ r) = some (rawItems (v :: vs), r) := by
  induction vs generalizing v fuel with
  | nil =>
    simp only [itemsChars, moreItemsChars, List.length_append, List.length_singleton,
      List.append_assoc] at hfuel ⊢
    obtain ⟨fuel, rfl⟩ := Nat.exists_eq_add_of_le' (show 1 ≤ fuel by omega)
    exact rawItems?_last (ih v (by simp) fuel (']' :: r) (by omega))
  | cons w ws ihws =>
    simp only [itemsChars, moreItemsChars, List.length_append, List.length_cons,
      List.append_assoc, List.cons_append] at hfuel ihws ⊢
    obtain ⟨fuel, rfl⟩ := Nat.exists_eq_add_of_le' (show 1 ≤ fuel by omega)
    rw [rawItems?_more (ih v (by simp) fuel _ (by omega)),
      ihws (fun u hu => ih u (by simp [hu])) (by omega)]
    rfl

theorem reads_array {items : List Value} (hn : ∀ v ∈ items, v.NumberFree)
    (ih : ∀ v ∈ items, v.Reads) : (Value.array items).Reads := by
  intro fuel r hfuel
  simp only [Value.chars, List.length_cons, List.cons_append] at hfuel ⊢
  obtain ⟨fuel, rfl⟩ := Nat.exists_eq_add_of_le' (show 1 ≤ fuel by omega)
  cases items with
  | nil => simp [itemsChars, raw?, skip_cons, isSpace, Value.raw, rawItems]
  | cons v vs =>
    have hstart : StartsValue (itemsChars (v :: vs) ++ r) := by
      rw [itemsChars, List.append_assoc]
      exact (hn v (by simp)).startsValue _
    rw [raw?_array fuel hstart, rawItems?_chars ih r (by omega)]
    rfl

/-! ## Members -/

theorem raw?_object (fuel : Nat) (cs : List Char) :
    raw? (fuel + 1) ('\x7b' :: '"' :: cs) =
      (rawMembers? fuel ('"' :: cs)).map fun p => (.object p.1, p.2) := by
  cases hm : rawMembers? fuel ('"' :: cs) <;> simp [raw?, skip_cons, isSpace, hm]

/-- A member up to its value. -/
theorem rawMembers?_last {fuel : Nat} {key : String} {cs r : List Char} {t : Raw}
    (h : raw? fuel cs = some (t, '\x7d' :: r)) :
    rawMembers? (fuel + 1) (stringChars key ++ ':' :: cs) = some ([(some key, t)], r) := by
  simp [rawMembers?, stringChars, h, skip_cons, isSpace, string?_written]

theorem rawMembers?_more {fuel : Nat} {key : String} {cs rest : List Char} {t : Raw}
    (h : raw? fuel cs = some (t, ',' :: rest)) :
    rawMembers? (fuel + 1) (stringChars key ++ ':' :: cs) =
      (rawMembers? fuel rest).map fun p => ((some key, t) :: p.1, p.2) := by
  cases hm : rawMembers? fuel rest <;>
    simp [rawMembers?, stringChars, h, skip_cons, isSpace, string?_written, hm]

theorem rawMembers?_chars {m : String × Value} {ms : List (String × Value)}
    (ih : ∀ m' ∈ m :: ms, m'.2.Reads) {fuel : Nat} (r : List Char)
    (hfuel : 2 * (membersChars (m :: ms)).length ≤ fuel) :
    rawMembers? fuel (membersChars (m :: ms) ++ r) = some (rawMembers (m :: ms), r) := by
  induction ms generalizing m fuel with
  | nil =>
    simp only [membersChars, moreMembersChars, List.length_append, List.length_cons,
      List.length_nil, List.append_assoc, List.cons_append, List.nil_append] at hfuel ⊢
    obtain ⟨fuel, rfl⟩ := Nat.exists_eq_add_of_le' (show 1 ≤ fuel by omega)
    exact rawMembers?_last (ih m (by simp) fuel ('\x7d' :: r) (by omega))
  | cons w ws ihws =>
    simp only [membersChars, moreMembersChars, List.length_append, List.length_cons,
      List.append_assoc, List.cons_append] at hfuel ihws ⊢
    obtain ⟨fuel, rfl⟩ := Nat.exists_eq_add_of_le' (show 1 ≤ fuel by omega)
    rw [rawMembers?_more (ih m (by simp) fuel _ (by omega)),
      ihws (fun u hu => ih u (by simp [hu])) (by omega)]
    rfl

theorem reads_object {members : List (String × Value)} (ih : ∀ m ∈ members, m.2.Reads) :
    (Value.object members).Reads := by
  intro fuel r hfuel
  simp only [Value.chars, List.length_cons, List.cons_append] at hfuel ⊢
  obtain ⟨fuel, rfl⟩ := Nat.exists_eq_add_of_le' (show 1 ≤ fuel by omega)
  cases members with
  | nil => simp [membersChars, raw?, skip_cons, isSpace, Value.raw, rawMembers]
  | cons m ms =>
    have hquote : ∃ cs, membersChars (m :: ms) ++ r = '"' :: cs := ⟨_, rfl⟩
    obtain ⟨cs, hcs⟩ := hquote
    rw [hcs, raw?_object, ← hcs, rawMembers?_chars ih r (by omega)]
    rfl

/-! ## Values -/

/-- **The compact text of a value is read as its tree**, whatever follows it. -/
theorem raw?_chars {v : Value} (h : v.NumberFree) : v.Reads := by
  induction h with
  | null =>
    intro fuel r hfuel
    cases fuel with
    | zero => simp [Value.chars] at hfuel
    | succ fuel => simp [Value.chars, raw?, skip_cons, isSpace, Value.raw]
  | boolean b =>
    intro fuel r hfuel
    cases fuel with
    | zero => cases b <;> simp [Value.chars] at hfuel
    | succ fuel => cases b <;> simp [Value.chars, raw?, skip_cons, isSpace, Value.raw]
  | string s => exact reads_string s
  | array h ih => exact reads_array h ih
  | object h ih => exact reads_object ih

/-- The tree of a whole text. -/
theorem ofText?_compact {v : Value} (h : v.NumberFree) : Raw.ofText? v.compact = some v.raw := by
  have hread := raw?_chars h (2 * v.chars.length + 2) [] (by omega)
  rw [List.append_nil] at hread
  unfold Raw.ofText? Value.compact
  rw [String.toList_ofList]
  simp only [hread, Option.bind_eq_bind, Option.bind_some]
  rfl

/-! ## The value of a tree -/

theorem itemValues?_raw {items : List Value} {depth : Nat}
    (ih : ∀ v ∈ items, v.nesting ≤ depth → v.raw.value? depth = some v)
    (hdepth : itemsNesting items ≤ depth) : itemValues? depth (rawItems items) = some items := by
  induction items with
  | nil => rfl
  | cons v vs ihvs =>
    rw [itemsNesting, Nat.max_le] at hdepth
    simp [rawItems, itemValues?, ih v (by simp) hdepth.1,
      ihvs (fun w hw => ih w (by simp [hw])) hdepth.2]

theorem memberValues?_raw {members : List (String × Value)} {depth : Nat}
    (ih : ∀ m ∈ members, m.2.nesting ≤ depth → m.2.raw.value? depth = some m.2)
    (hdepth : membersNesting members ≤ depth) :
    memberValues? depth (rawMembers members) = some members := by
  induction members with
  | nil => rfl
  | cons m ms ihms =>
    obtain ⟨key, v⟩ := m
    rw [membersNesting, Nat.max_le] at hdepth
    simp [rawMembers, memberValues?, ih (key, v) (by simp) hdepth.1,
      ihms (fun w hw => ih w (by simp [hw])) hdepth.2]

/-- **The tree of a value has the value**, unless its containers lie too deep. -/
theorem value?_raw {v : Value} (h : v.NumberFree) {depth : Nat} (hdepth : v.nesting ≤ depth) :
    v.raw.value? depth = some v := by
  induction h generalizing depth with
  | null | boolean | string => cases depth <;> rfl
  | @array items h ih =>
    obtain ⟨depth, rfl⟩ := Nat.exists_eq_add_of_le' (show 1 ≤ depth from by
      rw [Value.nesting] at hdepth; omega)
    rw [Value.nesting, Nat.add_le_add_iff_right] at hdepth
    simp [Value.raw, Raw.value?, itemValues?_raw (fun v hv hd => ih v hv hd) hdepth]
  | @object members h ih =>
    obtain ⟨depth, rfl⟩ := Nat.exists_eq_add_of_le' (show 1 ≤ depth from by
      rw [Value.nesting] at hdepth; omega)
    rw [Value.nesting, Nat.add_le_add_iff_right] at hdepth
    simp [Value.raw, Raw.value?, memberValues?_raw (fun m hm hd => ih m hm hd) hdepth]

/-- **Two values of one text are the same.** -/
theorem compact_inj {v w : Value} (hv : v.NumberFree) (hw : w.NumberFree)
    (h : v.compact = w.compact) : v = w := by
  have hraw : v.raw = w.raw :=
    Option.some.inj ((ofText?_compact hv).symm.trans (h ▸ ofText?_compact hw))
  -- At some depth both trees have their values.
  have hread := value?_raw hv (Nat.le_max_left v.nesting w.nesting)
  rw [hraw, value?_raw hw (Nat.le_max_right v.nesting w.nesting)] at hread
  exact (Option.some.inj hread).symm

end VarLogic.Json
