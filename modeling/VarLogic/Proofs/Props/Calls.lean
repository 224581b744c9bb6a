/-
Inline styles over a whole run of calls. A style is a list of entries in which a
property is found at its first entry, be it read, set or taken out. That no property
has a second one is kept by every call (`nodup_call`), so in any run taking a
property out takes all of it out (`remove_eq`), setting one changes a single entry,
and a style is a map that keeps its order: what a property has is what the last call
about it gave it (`get?_run`), and a call leaves all other entries as they are, in
their order (`others_call`).
-/
import VarLogic.Proofs.Props.InlineStyle
import Mathlib.Data.List.Induction
import Mathlib.Data.Set.Card

namespace VarLogic.InlineStyle

variable {style : InlineStyle} {p q value : String}

/-! ## Entries -/

/-- The value of a property that is there is replaced at its place. -/
theorem entries_set_of_eq_some {old : String} (h : style.get? p = some old) (value : String) :
    ∃ front rest, style.entries = front ++ (p, old) :: rest ∧
      (style.set p value).entries = front ++ (p, value) :: rest := by
  obtain ⟨front, rest, he, hne⟩ := List.lookup_eq_some_iff.1 h
  have hfront : p ∉ front.map (·.1) := by
    intro hm
    obtain ⟨e, hmem, heq⟩ := List.mem_map.1 hm
    exact absurd heq.symm (by simpa using hne e hmem)
  refine ⟨front, rest, he, ?_⟩
  rw [set, he, setEntry_append hfront, setEntry, if_pos rfl]

theorem isSome_get?_iff : (style.get? p).isSome ↔ p ∈ style.properties := by
  rw [← mem_properties, map_property_declarations]

theorem get?_eq_none_iff : style.get? p = none ↔ p ∉ style.properties := by
  rw [← isSome_get?_iff, Option.not_isSome_iff_eq_none]

/-- The size is the number of properties that have a value. -/
theorem size_eq_ncard (h : style.properties.Nodup) :
    style.size = Set.ncard {p | (style.get? p).isSome} := by
  have hset : {p | (style.get? p).isSome} = (style.properties.toFinset : Set String) := by
    ext p
    rw [Set.mem_ofPred_eq, isSome_get?_iff, Finset.mem_coe, List.mem_toFinset]
  rw [hset, Set.ncard_coe_finset, List.toFinset_card_of_nodup h, properties, List.length_map, size]

/-! ## Calls -/

/-- What a style can be asked. -/
inductive Call where
  /-- To set a property, which keeps its place if it is there. -/
  | set (property value : String)
  /-- To set a property and put it after all others. -/
  | setLast (property value : String)
  /-- For the value of a property. -/
  | get (property : String)
  /-- To take a property out and give its value. -/
  | remove (property : String)
deriving DecidableEq, Repr

namespace Call

/-- The property that is set or taken out. -/
def changed? : Call → Option String
  | .set p _ | .setLast p _ | .remove p => some p
  | .get _ => none

/-- What it is set to; it has no value where it is taken out. -/
def value? : Call → Option String
  | .set _ v | .setLast _ v => some v
  | .get _ | .remove _ => none

end Call

/-- The answer to a call, and the style after it. -/
def call (style : InlineStyle) : Call → Option String × InlineStyle
  | .set p v => (none, style.set p v)
  | .setLast p v => (none, style.setLast p v)
  | .get p => (style.get? p, style)
  | .remove p => style.remove p

/-- Calls one after the other, from the empty style. -/
def run (calls : List Call) : InlineStyle := calls.foldl (fun style c => (style.call c).2) empty

theorem run_concat (calls : List Call) (c : Call) :
    run (calls ++ [c]) = ((run calls).call c).2 :=
  List.foldl_concat ..

/-- **A call keeps properties apart.** -/
theorem nodup_call (h : style.properties.Nodup) (c : Call) : (style.call c).2.properties.Nodup := by
  cases c with
  | set p v => exact nodup_set h p v
  | setLast p v => exact nodup_setLast h p v
  | get p => exact h
  | remove p =>
    rw [call, remove_eq h]
    exact h.sublist (List.filter_sublist.map _)

/-- What a property has after a call that is about it, or about another one. -/
theorem get?_call (h : style.properties.Nodup) (c : Call) (q : String) :
    (style.call c).2.get? q = if c.changed? = some q then c.value? else style.get? q := by
  cases c with
  | set p v =>
    simp only [call, get?_set, Call.changed?, Call.value?, Option.some.injEq, @eq_comm _ q p]
  | setLast p v =>
    simp only [call, get?_setLast h, Call.changed?, Call.value?, Option.some.injEq, @eq_comm _ q p]
  | get p => rfl
  | remove p =>
    simp only [call, remove_eq h, get?_erase, Call.changed?, Call.value?, Option.some.injEq,
      @eq_comm _ q p]

theorem filter_setEntry (p value : String) (entries : List (String × String)) :
    (setEntry p value entries).filter (·.1 ≠ p) = entries.filter (·.1 ≠ p) := by
  induction entries with
  | nil => simp [setEntry]
  | cons e rest ih =>
    obtain ⟨q, v⟩ := e
    rw [setEntry]
    by_cases hq : q = p
    · simp [hq]
    · rw [if_neg hq, List.filter_cons, List.filter_cons, ih]

/-- What a call is not about are the entries of other properties. -/
theorem filter_others {c : Call} (hc : c.changed? = some p) (entries : List (String × String)) :
    entries.filter (fun e => c.changed? ≠ some e.1) = entries.filter (·.1 ≠ p) := by
  refine List.filter_congr fun e _ => ?_
  rw [hc]
  simp [eq_comm]

/-- **A call leaves all other entries as they are**, and in their order. -/
theorem others_call (h : style.properties.Nodup) (c : Call) :
    (style.call c).2.entries.filter (fun e => c.changed? ≠ some e.1) =
      style.entries.filter fun e => c.changed? ≠ some e.1 := by
  cases c with
  | set p v =>
    rw [filter_others rfl, filter_others rfl]
    exact filter_setEntry p v style.entries
  | setLast p v =>
    rw [filter_others rfl, filter_others rfl]
    simp [call, setLast_eq h, erase]
  | get p => rfl
  | remove p =>
    rw [filter_others rfl, filter_others rfl, call, remove_eq h]
    simp [erase]

/-! ## Runs -/

theorem nodup_run (calls : List Call) : (run calls).properties.Nodup := by
  induction calls using List.reverseRecOn with
  | nil => exact nodup_empty
  | append_singleton calls c ih =>
    rw [run_concat]
    exact nodup_call ih c

/-- **What a property has is what the last call about it gave it.** -/
theorem get?_run (calls : List Call) (p : String) :
    (run calls).get? p = (calls.filter (·.changed? = some p)).getLast?.bind Call.value? := by
  induction calls using List.reverseRecOn with
  | nil => rfl
  | append_singleton calls c ih =>
    rw [run_concat, get?_call (nodup_run calls), List.filter_append]
    by_cases hc : c.changed? = some p
    · rw [if_pos hc, List.filter_cons_of_pos (by simpa using hc), List.filter_nil,
        List.getLast?_concat, Option.bind_some]
    · rw [if_neg hc, List.filter_cons_of_neg (by simpa using hc), List.filter_nil,
        List.append_nil, ih]

/-- **An inline style is a map that keeps its order**, in every run of calls from the
empty one. No property comes twice. A property has what the last call about it set
it to, and nothing if that took it out. Setting a property that is there replaces
its value at its place, and setting another one appends it. Setting it last takes it
out and appends it. Taking it out gives the value it had and leaves the rest in its
order. The size is the number of properties with a value. And whatever the next call
is, all entries that it is not about stay, in their order. -/
theorem run_keeps_order (calls : List Call) :
    (run calls).properties.Nodup ∧
    (∀ p, (run calls).get? p = (calls.filter (·.changed? = some p)).getLast?.bind Call.value?) ∧
    (∀ p value,
      (∀ old, (run calls).get? p = some old →
        ∃ front rest, (run calls).entries = front ++ (p, old) :: rest ∧
          ((run calls).set p value).entries = front ++ (p, value) :: rest) ∧
      ((run calls).get? p = none →
        ((run calls).set p value).entries = (run calls).entries ++ [(p, value)])) ∧
    (∀ p value, (run calls).setLast p value = ⟨((run calls).remove p).2.entries ++ [(p, value)]⟩) ∧
    (∀ p, (run calls).remove p =
      ((run calls).get? p, ⟨(run calls).entries.filter (·.1 ≠ p)⟩)) ∧
    (run calls).size = Set.ncard {p | ((run calls).get? p).isSome} ∧
    ∀ c, ((run calls).call c).2.entries.filter (fun e => c.changed? ≠ some e.1) =
      (run calls).entries.filter fun e => c.changed? ≠ some e.1 := by
  have h := nodup_run calls
  refine ⟨h, get?_run calls, fun p value => ⟨fun old hold => ?_, fun hp => ?_⟩,
    fun p value => rfl, fun p => ?_, size_eq_ncard h, others_call h⟩
  · exact entries_set_of_eq_some hold value
  · rw [set_of_not_mem (get?_eq_none_iff.1 hp)]
  · rw [remove_eq h, erase]

/-- A width is set between two colors, and a third color is set last. -/
def colorCalls : List Call :=
  [.set "color" "red", .set "width" "1px", .set "color" "blue", .setLast "color" "green"]

theorem run_keeps_order_color :
    (run colorCalls).get? "width" = some "1px" ∧
      (∃ front rest, (run colorCalls).entries = front ++ ("width", "1px") :: rest ∧
        ((run colorCalls).set "width" "2px").entries = front ++ ("width", "2px") :: rest) ∧
      (run colorCalls).get? "gap" = none ∧
      ((run colorCalls).set "gap" "0").entries = (run colorCalls).entries ++ [("gap", "0")] ∧
      (run colorCalls).remove "color" = (some "green", ⟨[("width", "1px")]⟩) := by
  have hwidth : (run colorCalls).get? "width" = some "1px" := by decide
  have hgap : (run colorCalls).get? "gap" = none := by decide
  obtain ⟨-, -, hset, -, hremove, -, -⟩ := run_keeps_order colorCalls
  refine ⟨hwidth, (hset "width" "2px").1 _ hwidth, hgap, (hset "gap" "0").2 hgap, ?_⟩
  rw [hremove]
  decide

end VarLogic.InlineStyle
