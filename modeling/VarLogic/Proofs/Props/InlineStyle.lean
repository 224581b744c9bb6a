/-
Inline styles as maps and as lists. A property that is taken out goes with its
first entry; where no property comes twice this is all there is of it
(`remove_eq`, `setLast_eq`). What a property has after it was set, at its place or
at the end, is what it was set to, and all other properties keep what they have
(`get?_set`, `get?_setLast`). A property that is set keeps its place or comes last
(`properties_set`), one that is set last comes last (`properties_setLast`), and the
others keep their order. None of this makes a property come twice.
-/
import VarLogic.Props.Meaning
import Mathlib.Data.List.Nodup

namespace VarLogic.InlineStyle

variable {style : InlineStyle}

/-- The properties of a style, in their order. -/
def properties (style : InlineStyle) : List String := style.entries.map (·.1)

/-! ## Entries -/

theorem lookup_cons (p value q : String) (entries : List (String × String)) :
    ((p, value) :: entries).lookup q = if q = p then some value else entries.lookup q := by
  by_cases h : q = p
  · simp [h]
  · have hb : (q == p) = false := by simpa using h
    rw [List.lookup_cons, hb, if_neg h]

theorem lookup_setEntry (p value q : String) (entries : List (String × String)) :
    (setEntry p value entries).lookup q = if q = p then some value else entries.lookup q := by
  induction entries with
  | nil => exact lookup_cons p value q []
  | cons e rest ih =>
    obtain ⟨p', v⟩ := e
    rw [setEntry, lookup_cons]
    split
    · rename_i hp
      subst hp
      rw [lookup_cons]
      split <;> rfl
    · rename_i hp
      rw [lookup_cons, ih]
      by_cases h : q = p
      · simp [h, Ne.symm hp]
      · simp [h]

theorem lookup_erase (p q : String) (entries : List (String × String)) :
    (entries.filter (·.1 ≠ p)).lookup q = if q = p then none else entries.lookup q := by
  induction entries with
  | nil => simp
  | cons e rest ih =>
    obtain ⟨p', v⟩ := e
    rw [List.filter_cons, lookup_cons]
    by_cases hp : p' = p
    · rw [if_neg (by simpa using hp), ih]
      subst hp
      split <;> rfl
    · rw [if_pos (by simpa using hp), lookup_cons, ih]
      by_cases h : q = p
      · simp [h, Ne.symm hp]
      · simp [h]

/-- Nothing is taken out for a property that is not there. -/
theorem filter_of_not_mem {entries : List (String × String)} {p : String}
    (hp : p ∉ entries.map (·.1)) : entries.filter (·.1 ≠ p) = entries := by
  rw [List.filter_eq_self]
  intro e he
  rw [decide_eq_true_eq]
  intro heq
  exact hp (List.mem_map.2 ⟨e, he, heq⟩)

/-! ## Taking out -/

/-- The style without a property. -/
def erase (style : InlineStyle) (property : String) : InlineStyle :=
  ⟨style.entries.filter (·.1 ≠ property)⟩

theorem fst_removeEntry (p : String) (entries : List (String × String)) :
    (removeEntry p entries).1 = entries.lookup p := by
  induction entries with
  | nil => rfl
  | cons e rest ih =>
    obtain ⟨q, v⟩ := e
    rw [removeEntry, lookup_cons]
    by_cases hq : q = p
    · simp [hq]
    · simp [hq, Ne.symm hq, ih]

/-- Where no property comes twice, the first entry is all there is of a property. -/
theorem snd_removeEntry {entries : List (String × String)} (h : (entries.map (·.1)).Nodup)
    (p : String) : (removeEntry p entries).2 = entries.filter (·.1 ≠ p) := by
  induction entries with
  | nil => rfl
  | cons e rest ih =>
    obtain ⟨q, v⟩ := e
    rw [List.map_cons, List.nodup_cons] at h
    rw [removeEntry]
    by_cases hq : q = p
    · subst hq
      rw [if_pos rfl, List.filter_cons_of_neg (by simp), filter_of_not_mem h.1]
    · rw [if_neg hq, List.filter_cons_of_pos (by simpa using hq), ih h.2]

/-- **Taking a property out takes all of it out**, where none comes twice. -/
theorem remove_eq (h : style.properties.Nodup) (p : String) :
    style.remove p = (style.get? p, style.erase p) := by
  rw [remove, fst_removeEntry, snd_removeEntry h]
  rfl

/-- And setting it last puts it behind all other properties. -/
theorem setLast_eq (h : style.properties.Nodup) (p value : String) :
    style.setLast p value = ⟨(style.erase p).entries ++ [(p, value)]⟩ := by
  rw [setLast, remove_eq h]

/-! ## Values -/

theorem get?_erase (style : InlineStyle) (p q : String) :
    (style.erase p).get? q = if q = p then none else style.get? q :=
  lookup_erase p q style.entries

/-- A property that is set has the value, and the others keep theirs. -/
theorem get?_set (style : InlineStyle) (p value q : String) :
    (style.set p value).get? q = if q = p then some value else style.get? q :=
  lookup_setEntry p value q style.entries

theorem get?_setLast (h : style.properties.Nodup) (p value q : String) :
    (style.setLast p value).get? q = if q = p then some value else style.get? q := by
  rw [setLast_eq h, get?, erase, List.lookup_append, lookup_erase, lookup_cons]
  by_cases hq : q = p <;> simp [hq, get?]

/-! ## Order -/

theorem map_property_declarations (style : InlineStyle) :
    style.declarations.map (·.property) = style.properties := by
  simp [declarations, properties]

theorem properties_setEntry (p value : String) (entries : List (String × String)) :
    (setEntry p value entries).map (·.1) =
      if p ∈ entries.map (·.1) then entries.map (·.1) else entries.map (·.1) ++ [p] := by
  induction entries with
  | nil => simp [setEntry]
  | cons e rest ih =>
    obtain ⟨p', v⟩ := e
    rw [setEntry]
    by_cases hp : p' = p
    · simp [hp]
    · rw [if_neg hp, List.map_cons, ih]
      simp only [List.map_cons, List.mem_cons, Ne.symm hp, false_or]
      split
      · rfl
      · rfl

/-- A property that is set keeps its place, or comes last if it is new. -/
theorem properties_set (style : InlineStyle) (p value : String) :
    (style.set p value).properties =
      if p ∈ style.properties then style.properties else style.properties ++ [p] :=
  properties_setEntry p value style.entries

theorem properties_setLast (h : style.properties.Nodup) (p value : String) :
    (style.setLast p value).properties = style.properties.filter (· ≠ p) ++ [p] := by
  simp [setLast_eq h, erase, properties, List.filter_map, Function.comp_def]

theorem nodup_empty : empty.properties.Nodup := List.nodup_nil

theorem nodup_set (h : style.properties.Nodup) (p value : String) :
    (style.set p value).properties.Nodup := by
  rw [properties_set]
  split
  · exact h
  · rename_i hp
    rw [← List.concat_eq_append]
    exact .concat hp h

theorem nodup_setLast (h : style.properties.Nodup) (p value : String) :
    (style.setLast p value).properties.Nodup := by
  rw [properties_setLast h, ← List.concat_eq_append]
  exact .concat (by simp) (h.filter _)

/-- What stands in front of a property is not changed by setting it. -/
theorem setEntry_append {front : List (String × String)} {p : String} (hp : p ∉ front.map (·.1))
    (value : String) (rest : List (String × String)) :
    setEntry p value (front ++ rest) = front ++ setEntry p value rest := by
  induction front with
  | nil => rfl
  | cons e front ih =>
    obtain ⟨p', v⟩ := e
    rw [List.map_cons, List.mem_cons, not_or] at hp
    rw [List.cons_append, setEntry, if_neg (Ne.symm hp.1), ih hp.2, List.cons_append]

/-- Nor is it by taking the property out. -/
theorem removeEntry_append {front : List (String × String)} {p : String}
    (hp : p ∉ front.map (·.1)) (rest : List (String × String)) :
    removeEntry p (front ++ rest) =
      ((removeEntry p rest).1, front ++ (removeEntry p rest).2) := by
  induction front with
  | nil => rfl
  | cons e front ih =>
    obtain ⟨p', v⟩ := e
    rw [List.map_cons, List.mem_cons, not_or] at hp
    rw [List.cons_append, removeEntry, if_neg (Ne.symm hp.1), ih hp.2, List.cons_append]

/-- A new property comes last. -/
theorem set_of_not_mem {p : String} (hp : p ∉ style.properties)
    (value : String) : style.set p value = ⟨style.entries ++ [(p, value)]⟩ := by
  have h := setEntry_append hp value []
  rw [List.append_nil] at h
  exact congrArg InlineStyle.mk h

theorem mem_properties {p : String} :
    p ∈ style.declarations.map (·.property) ↔ (style.get? p).isSome := by
  simp [declarations, get?, List.lookup_isSome_iff]

end VarLogic.InlineStyle
