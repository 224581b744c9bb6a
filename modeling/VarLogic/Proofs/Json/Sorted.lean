/-
Members in order of their keys. Where no key is repeated, putting members in
order loses none of them (`sortMembers_perm`), so an object of one member in
order has one member as it stands (`sortMembers_eq_singleton`).
-/
import VarLogic.Json.Value

namespace VarLogic.Json

theorem insertMember_perm {key : String} {value : Value} {members : List (String × Value)}
    (h : key ∉ members.map (·.1)) :
    (insertMember key value members).Perm ((key, value) :: members) := by
  induction members with
  | nil => exact .refl _
  | cons m members ih =>
    obtain ⟨k, v⟩ := m
    rw [List.map_cons, List.mem_cons, not_or] at h
    rw [insertMember, if_neg h.1]
    split
    · exact .refl _
    · exact ((ih h.2).cons _).trans (.swap ..)

/-- **Sorting loses no member**, where no key is repeated. -/
theorem sortMembers_perm {members : List (String × Value)} (h : (members.map (·.1)).Nodup) :
    (sortMembers members).Perm members := by
  have run : ∀ (rest sorted : List (String × Value)), ((sorted ++ rest).map (·.1)).Nodup →
      (rest.foldl (fun sorted m => insertMember m.1 m.2 sorted) sorted).Perm (sorted ++ rest) := by
    intro rest
    induction rest with
    | nil =>
      intro sorted _
      rw [List.append_nil]
      exact .refl _
    | cons m rest ih =>
      intro sorted hn
      obtain ⟨key, value⟩ := m
      have hmiddle : (sorted ++ (key, value) :: rest).Perm ((key, value) :: (sorted ++ rest)) :=
        List.perm_middle
      have hnew : key ∉ (sorted ++ rest).map (·.1) :=
        (List.nodup_cons.1 ((hmiddle.map (·.1)).nodup_iff.1 hn)).1
      have hinsert : (insertMember key value sorted ++ rest).Perm ((key, value) :: (sorted ++ rest)) :=
        (insertMember_perm fun hm => hnew (by simp [List.mem_map.1 hm])).append_right rest
      exact (ih _ (((hinsert.trans hmiddle.symm).map _).nodup_iff.2 hn)).trans
        (hinsert.trans hmiddle.symm)
  exact run members [] h

theorem sortMembers_eq_singleton {members : List (String × Value)} {m : String × Value}
    (h : (members.map (·.1)).Nodup) : sortMembers members = [m] ↔ members = [m] := by
  constructor
  · intro hs
    exact List.perm_singleton.1 (hs ▸ (sortMembers_perm h).symm)
  · intro hm
    rw [hm]
    rfl

theorem sortedItems_eq_map (items : List Value) : sortedItems items = items.map (·.sorted) := by
  induction items with
  | nil => rfl
  | cons v vs ih => rw [sortedItems, ih, List.map_cons]

theorem sortedMembers_eq_map (members : List (String × Value)) :
    sortedMembers members = members.map fun m => (m.1, m.2.sorted) := by
  induction members with
  | nil => rfl
  | cons m ms ih => rw [sortedMembers, ih, List.map_cons]

/-- Sorting an object to a single member needs no more than that member. -/
theorem Value.sorted_eq_single {v w : Value} {key : String} (h : v.KeysDistinct) :
    v.sorted = .object [(key, w)] ↔ ∃ u, v = .object [(key, u)] ∧ u.sorted = w := by
  constructor
  · intro hs
    cases h with
    | null | boolean | number | string | array => simp [Value.sorted] at hs
    | @object members hn _ =>
      have hkeys : ((sortedMembers members).map (·.1)).Nodup := by
        rw [sortedMembers_eq_map, List.map_map]
        exact hn
      rw [Value.sorted, Value.object.injEq, sortMembers_eq_singleton hkeys, sortedMembers_eq_map] at hs
      obtain ⟨⟨k, u⟩, rfl, hm⟩ := List.map_eq_singleton_iff.1 hs
      obtain ⟨rfl, rfl⟩ := Prod.mk.inj hm
      exact ⟨u, rfl, rfl⟩
  · rintro ⟨u, rfl, rfl⟩
    rfl

end VarLogic.Json
