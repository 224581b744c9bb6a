/-
Which values are conditions. A value either is what is written of a condition or
has a fault (`toValue_or_fault`), by cases on the value, item by item; the first
kind is read back, and a fault is the error (`Fault.ofValue_eq`). So reading
accepts what is written and nothing else (`ofValue_eq_ok_iff`), and its errors are
the faults (`ofValue_eq_error_iff`).
-/
import VarLogic.Condition.Faults
import VarLogic.Proofs.Condition.Written

namespace VarLogic.Condition

open Json (Value)

/-! ## Faults are errors -/

/-- The items of a list are read up to the first fault. -/
theorem ofValues_fault {front : List (Condition String)} {v : Value} {back : List Value}
    {why : Misfit} (h : ofValue v = .error why) :
    ofValues (toValues front ++ v :: back) = .error why := by
  induction front with
  | nil =>
    rw [toValues, List.nil_append, ofValues, h]
    rfl
  | cons c front ih =>
    rw [toValues, List.cons_append, ofValues, ofValue_toValue, ih]
    rfl

theorem operands_eq_error {operand : Value} (h : ∀ items, operand ≠ .array items) :
    operands operand = .error (.wrongType operand "a sequence") := by
  cases operand with
  | array items => exact absurd rfl (h items)
  | null | boolean | number | string | object => rfl

/-- A list operator passes on the error of its operands. -/
theorem ofValue_list_error {operator : String} {operand : Value} {others : List (String × Value)}
    {why : Misfit} (ho : operator ∈ ["and", "or"]) (h : operands operand = .error why) :
    ofValue (.object ((operator, operand) :: others)) = .error why := by
  rw [ofValue, h]
  simp only [List.mem_cons, List.not_mem_nil, or_false] at ho
  rcases ho with rfl | rfl <;> rfl

/-- A second member is an error, once the first one has been read. -/
theorem ofValue_mixed {c : Condition String} {operator other : String} {operand second : Value}
    {others : List (String × Value)} (h : c.toValue = .object [(operator, operand)]) :
    ofValue (.object ((operator, operand) :: (other, second) :: others)) =
      .error (.mixedOperators operator other) := by
  have hread : ∀ cs : List (Condition String), operands (.array (toValues cs)) = .ok cs :=
    fun cs => ofValues_toValues fun c _ => ofValue_toValue c
  cases c with
  | leaf a => cases h
  | and cs =>
    cases h
    rw [ofValue, if_pos rfl, hread]
    rfl
  | or cs =>
    cases h
    rw [ofValue, if_neg (by decide), if_pos rfl, hread]
    rfl
  | not c =>
    cases h
    rw [ofValue, if_neg (by decide), if_neg (by decide), if_pos rfl, ofValue_toValue]
    rfl

/-- **A fault is the error.** -/
theorem Fault.ofValue_eq {v : Value} {why : Misfit} (h : Fault v why) : ofValue v = .error why := by
  induction h with
  | @wrongType v hs ho =>
    cases v with
    | string s => exact absurd rfl (hs s)
    | object members => exact absurd rfl (ho members)
    | null | boolean | number | array => rfl
  | empty => rfl
  | unknownOperator h =>
    simp only [List.mem_cons, List.not_mem_nil, or_false, not_or] at h
    rw [ofValue, if_neg h.1, if_neg h.2.1, if_neg h.2.2]
    rfl
  | notAList ho h => exact ofValue_list_error ho (operands_eq_error h)
  | item ho _ ih =>
    refine ofValue_list_error ho ?_
    rw [operands, ofValues_fault ih]
  | operand _ ih =>
    rw [ofValue, if_neg (by decide), if_neg (by decide), if_pos rfl, ih]
    rfl
  | mixed h => exact ofValue_mixed h

/-! ## Nothing else is refused -/

/-- The items up to the first fault, if there is one. -/
theorem toValues_or_fault {items : List Value}
    (ih : ∀ v ∈ items, (∃ c, toValue c = v) ∨ ∃ why, Fault v why) :
    (∃ cs, toValues cs = items) ∨
      ∃ front v back why, items = toValues front ++ v :: back ∧ Fault v why := by
  induction items with
  | nil => exact .inl ⟨[], rfl⟩
  | cons v vs ihvs =>
    rcases ih v (by simp) with ⟨c, hc⟩ | ⟨why, hwhy⟩
    · rcases ihvs fun w hw => ih w (by simp [hw]) with ⟨cs, hcs⟩ | ⟨front, w, back, why, hvs, hwhy⟩
      · exact .inl ⟨c :: cs, by rw [toValues, hc, hcs]⟩
      · exact .inr ⟨c :: front, w, back, why, by rw [toValues, hc, hvs, List.cons_append], hwhy⟩
    · exact .inr ⟨[], v, vs, why, rfl, hwhy⟩

/-- The first member of an object, as if it were the only one. -/
theorem single_or_fault {operator : String} {operand : Value} (others : List (String × Value))
    (ih : (∃ c, toValue c = operand) ∨ ∃ why, Fault operand why)
    (ihs : ∀ items, operand = .array items →
      ∀ v ∈ items, (∃ c, toValue c = v) ∨ ∃ why, Fault v why) :
    (∃ c, toValue c = .object [(operator, operand)]) ∨
      ∃ why, Fault (.object ((operator, operand) :: others)) why := by
  by_cases hnot : operator = "not"
  · subst hnot
    rcases ih with ⟨c, hc⟩ | ⟨why, hwhy⟩
    · exact .inl ⟨.not c, by rw [toValue, hc]⟩
    · exact .inr ⟨why, .operand hwhy⟩
  by_cases hlist : operator ∈ ["and", "or"]
  · by_cases harray : ∃ items, operand = .array items
    · obtain ⟨items, rfl⟩ := harray
      rcases toValues_or_fault (ihs items rfl) with ⟨cs, rfl⟩ | ⟨front, v, back, why, rfl, hwhy⟩
      · simp only [List.mem_cons, List.not_mem_nil, or_false] at hlist
        rcases hlist with rfl | rfl
        · exact .inl ⟨.and cs, rfl⟩
        · exact .inl ⟨.or cs, rfl⟩
      · exact .inr ⟨why, .item hlist hwhy⟩
    · exact .inr ⟨_, .notAList hlist (not_exists.1 harray)⟩
  · refine .inr ⟨_, .unknownOperator fun h => ?_⟩
    simp only [List.mem_cons, List.not_mem_nil, or_false, not_or] at h hlist
    rcases h with h | h | h
    · exact hlist.1 h
    · exact hlist.2 h
    · exact hnot h

/-- **A value is what is written of a condition, or has a fault.** -/
theorem toValue_or_fault (v : Value) : (∃ c, toValue c = v) ∨ ∃ why, Fault v why := by
  -- An operand that is a list is no condition itself, but its items may be.
  suffices h : ((∃ c, toValue c = v) ∨ ∃ why, Fault v why) ∧
      ∀ items, v = .array items → ∀ w ∈ items, (∃ c, toValue c = w) ∨ ∃ why, Fault w why from h.1
  induction v using Value.induction with
  | null | boolean | number => exact ⟨.inr ⟨_, .wrongType (by simp) (by simp)⟩, by simp⟩
  | string s => exact ⟨.inl ⟨.leaf s, rfl⟩, by simp⟩
  | array items ih =>
    refine ⟨.inr ⟨_, .wrongType (by simp) (by simp)⟩, ?_⟩
    intro items' h w hw
    obtain rfl := Value.array.inj h
    exact (ih w hw).1
  | object members ih =>
    refine ⟨?_, by simp⟩
    cases members with
    | nil => exact .inr ⟨_, .empty⟩
    | cons m others =>
      obtain ⟨operator, operand⟩ := m
      have hoperand := ih (operator, operand) (by simp)
      rcases single_or_fault others hoperand.1 hoperand.2 with ⟨c, hc⟩ | hfault
      · cases others with
        | nil => exact .inl ⟨c, hc⟩
        | cons other others => exact .inr ⟨_, .mixed hc⟩
      · exact .inr hfault

/-! ## Reading -/

theorem ofValue_eq_ok_iff {v : Value} {c : Condition String} : ofValue v = .ok c ↔ c.toValue = v := by
  constructor
  · intro h
    rcases toValue_or_fault v with ⟨d, rfl⟩ | ⟨why, hwhy⟩
    · rw [ofValue_toValue] at h
      rw [Except.ok.inj h]
    · cases hwhy.ofValue_eq.symm.trans h
  · intro h
    rw [← h, ofValue_toValue]

theorem ofValue_eq_error_iff {v : Value} {why : Misfit} :
    ofValue v = .error why ↔ Fault v why := by
  constructor
  · intro h
    rcases toValue_or_fault v with ⟨c, rfl⟩ | ⟨why', hwhy⟩
    · cases (ofValue_toValue c).symm.trans h
    · exact Except.error.inj (hwhy.ofValue_eq.symm.trans h) ▸ hwhy
  · exact Fault.ofValue_eq

end VarLogic.Condition
