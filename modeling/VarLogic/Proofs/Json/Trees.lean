/-
The value of a tree, part by part: a container has a value if it does not lie too
deep and all its parts have one (`value?_array`, `value?_object`), and its parts
are told apart one by one (`itemValues?_cons`, `memberValues?_cons`).
-/
import VarLogic.Json.Reader

namespace VarLogic.Json

theorem value?_array {items : List Raw} {depth : Nat} {v : Value} :
    (Raw.array items).value? depth = some v ↔
      ∃ d vs, depth = d + 1 ∧ itemValues? d items = some vs ∧ v = .array vs := by
  cases depth with
  | zero => simp [Raw.value?]
  | succ depth => cases hi : itemValues? depth items <;> simp [Raw.value?, hi, eq_comm]

theorem value?_object {members : List (Option String × Raw)} {depth : Nat} {v : Value} :
    (Raw.object members).value? depth = some v ↔
      ∃ d vs, depth = d + 1 ∧ memberValues? d members = some vs ∧ v = .object vs := by
  cases depth with
  | zero => simp [Raw.value?]
  | succ depth => cases hm : memberValues? depth members <;> simp [Raw.value?, hm, eq_comm]

theorem itemValues?_cons {t : Raw} {ts : List Raw} {depth : Nat} {vs : List Value} :
    itemValues? depth (t :: ts) = some vs ↔
      ∃ v rest, t.value? depth = some v ∧ itemValues? depth ts = some rest ∧ vs = v :: rest := by
  cases ht : t.value? depth <;> cases hts : itemValues? depth ts <;>
    simp [itemValues?, ht, hts, eq_comm]

theorem memberValues?_cons {m : Option String × Raw} {ms : List (Option String × Raw)}
    {depth : Nat} {vs : List (String × Value)} :
    memberValues? depth (m :: ms) = some vs ↔
      ∃ key v rest, m.1 = some key ∧ m.2.value? depth = some v ∧
        memberValues? depth ms = some rest ∧ vs = (key, v) :: rest := by
  obtain ⟨key, t⟩ := m
  cases key <;> cases ht : t.value? depth <;> cases hms : memberValues? depth ms <;>
    simp [memberValues?, ht, hms, eq_comm]

/-- An object of one member is read from a tree of one member. -/
theorem tree_of_single {tree : Raw} {depth : Nat} {key : String} {v : Value}
    (h : tree.value? depth = some (.object [(key, v)])) : ∃ t, tree = .object [(some key, t)] := by
  cases tree with
  | null | boolean | number | string => simp [Raw.value?] at h
  | array items =>
    obtain ⟨_, _, _, _, h⟩ := value?_array.1 h
    cases h
  | object members =>
    obtain ⟨d, vs, -, hm, hv⟩ := value?_object.1 h
    obtain rfl := Value.object.inj hv
    cases members with
    | nil => cases hm
    | cons m ms =>
      obtain ⟨k, w, rest, hk, -, hms, he⟩ := memberValues?_cons.1 hm
      obtain ⟨hm, rfl⟩ := List.cons.inj he
      obtain ⟨rfl, rfl⟩ := Prod.mk.inj hm
      cases ms with
      | nil => exact ⟨m.2, by rw [← hk]⟩
      | cons m' ms =>
        obtain ⟨_, _, _, _, _, _, he⟩ := memberValues?_cons.1 hms
        cases he

end VarLogic.Json
