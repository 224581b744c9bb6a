/-
Conditions in parsed values. A parsed value has the members of its objects in
order, and so has what is written of a condition (`sorted_toValue`). Where no key
is repeated, nothing but the order is lost of a document, so it makes no
difference to the conditions read (`ofParsed_eq_ok_iff_ofValue`). The conditions
read are those written (`ofParsed_written`).
-/
import VarLogic.Proofs.Condition.Faults
import VarLogic.Proofs.Json.Sorted

namespace VarLogic.Condition

open Json (Value)

/-! ## Order -/

/-- What is written has its members in order. -/
theorem sorted_toValue (c : Condition String) : c.toValue.sorted = c.toValue := by
  have list : ∀ {cs : List (Condition String)}, (∀ c ∈ cs, c.toValue.sorted = c.toValue) →
      Json.sortedItems (toValues cs) = toValues cs := by
    intro cs ih
    rw [Json.sortedItems_eq_map, toValues_eq_map, List.map_map]
    exact List.map_congr_left ih
  induction c with
  | leaf a => rfl
  | and cs ih | or cs ih =>
    rw [toValue]
    simp only [Value.sorted, Json.sortedMembers, list ih]
    rfl
  | not c ih =>
    rw [toValue]
    simp only [Value.sorted, Json.sortedMembers, ih]
    rfl

theorem items_eq_toValues {items : List Value} {cs : List (Condition String)}
    (ih : ∀ c ∈ cs, ∀ v : Value, v.KeysDistinct → v.sorted = c.toValue → v = c.toValue)
    (hd : ∀ v ∈ items, v.KeysDistinct) (h : Json.sortedItems items = toValues cs) :
    items = toValues cs := by
  induction items generalizing cs with
  | nil => exact h
  | cons v vs ihvs =>
    cases cs with
    | nil => cases h
    | cons c cs =>
      obtain ⟨hv, hvs⟩ := List.cons.inj h
      rw [toValues, ih c (by simp) v (hd v (by simp)) hv,
        ihvs (fun d hdm => ih d (by simp [hdm])) (fun w hw => hd w (by simp [hw])) hvs]

/-- A value that gives a written one in order is the written one, if it repeats
no key. -/
theorem eq_toValue_of_sorted {v : Value} {c : Condition String} (hd : v.KeysDistinct)
    (h : v.sorted = c.toValue) : v = c.toValue := by
  have list : ∀ {operator : String} {cs : List (Condition String)} {v : Value},
      (∀ c ∈ cs, ∀ v : Value, v.KeysDistinct → v.sorted = c.toValue → v = c.toValue) →
      v.KeysDistinct → v.sorted = .object [(operator, .array (toValues cs))] →
      v = .object [(operator, .array (toValues cs))] := by
    intro operator cs v ih hd h
    obtain ⟨operand, rfl, hoperand⟩ := (Value.sorted_eq_single hd).1 h
    cases operand with
    | null | boolean | number | string | object => simp [Value.sorted] at hoperand
    | array items =>
      obtain ⟨-, hmembers⟩ := Value.keysDistinct_object.1 hd
      have hitems := Value.keysDistinct_array.1 (hmembers (operator, .array items) (by simp))
      rw [Value.sorted] at hoperand
      rw [items_eq_toValues ih hitems (Value.array.inj hoperand)]
  induction c generalizing v with
  | leaf a =>
    cases v with
    | string s => exact h
    | null | boolean | number | array | object => simp [Value.sorted, toValue] at h
  | and cs ih => exact list (fun c hc _ => ih c hc) hd h
  | or cs ih => exact list (fun c hc _ => ih c hc) hd h
  | not c ih =>
    obtain ⟨operand, rfl, hoperand⟩ := (Value.sorted_eq_single hd).1 h
    obtain ⟨-, hmembers⟩ := Value.keysDistinct_object.1 hd
    have hdistinct : operand.KeysDistinct := hmembers ("not", operand) (by simp)
    rw [ih hdistinct hoperand, toValue]

/-! ## Reading -/

theorem ofParsed_eq_ok_iff {v : Value} {c : Condition String} :
    ofParsed v = .ok c ↔ c.toValue = v.sorted := by
  rw [← ofValue_eq_ok_iff, ofParsed]
  cases ofValue v.sorted with
  | error why => constructor <;> (intro h; cases h)
  | ok c' => constructor <;> (intro h; cases h; rfl)

theorem ofParsed_eq_error_iff {v : Value} {e : Error} :
    ofParsed v = .error e ↔ ∃ why, e = .invalidCondition why ∧ Fault v.sorted why := by
  simp only [← ofValue_eq_error_iff, ofParsed]
  cases ofValue v.sorted with
  | error why =>
    constructor
    · intro h
      exact ⟨why, (Except.error.inj h).symm, rfl⟩
    · intro h
      obtain ⟨why', rfl, hwhy⟩ := h
      rw [Except.error.inj hwhy]
      rfl
  | ok c =>
    constructor
    · intro h
      cases h
    · intro h
      obtain ⟨why, -, hwhy⟩ := h
      cases hwhy

/-- Where no key is repeated, the order of the members makes no difference. -/
theorem ofParsed_eq_ok_iff_ofValue {v : Value} (hd : v.KeysDistinct) {c : Condition String} :
    ofParsed v = .ok c ↔ ofValue v = .ok c := by
  rw [ofParsed_eq_ok_iff, ofValue_eq_ok_iff]
  constructor
  · intro h
    exact (eq_toValue_of_sorted hd h.symm).symm
  · intro h
    rw [← h, sorted_toValue]

/-- **The conditions read are those written.** A value is read as a condition
exactly if it is what is written of that condition, whether its members are in
the order of a document or in order of their keys. Every other value has a fault
at some depth, and the first one is the error. -/
theorem ofParsed_written (v : Value) :
    (∀ c, ofParsed v = .ok c ↔ c.toValue = v.sorted) ∧ (∀ c, ofValue v = .ok c ↔ c.toValue = v) ∧
      (∀ c : Condition String, c.toValue.sorted = c.toValue) ∧
      ∀ e, ofParsed v = .error e ↔ ∃ why, e = .invalidCondition why ∧ Fault v.sorted why :=
  ⟨fun _ => ofParsed_eq_ok_iff, fun _ => ofValue_eq_ok_iff, sorted_toValue,
    fun _ => ofParsed_eq_error_iff⟩

-- Two operators inside the second operand; in order, `and` comes first.
example : ofParsed (.object [("or", .array [.string "a",
    .object [("not", .string "b"), ("and", .array [])]])]) =
      .error (.invalidCondition (.mixedOperators "and" "not")) := by
  rfl

end VarLogic.Condition
