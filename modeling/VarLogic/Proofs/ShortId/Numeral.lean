/-
Numbers in base 36. Digits are read from the left, each moving what was read
before it up by one place (`ofBase36`). A number has many numerals, but they are
all its base-36 form with zeros in front (`IsNumeral.eq_replicate_append`): the
form is shorter than any other numeral (`isShortest_base36`), and no other number
has it (`base36_inj`).
-/
import Mathlib.Data.List.Induction
import VarLogic.Proofs.ShortId

namespace VarLogic.ShortId

/-! ## Digits -/

/-- The value of a digit: `0` to `9`, then `a` to `z`. -/
def digitValue (c : Char) : Nat :=
  if c.isDigit then c.toNat - 48 else c.toNat - 87

theorem digitValue_digit36 : ∀ n < 36, digitValue (digit36 n) = n := by decide

/-- The characters of ids are the digits. -/
theorem exists_digit36 {c : Char} (h : isWordChar c = true) : ∃ n < 36, digit36 n = c := by
  rcases toNat_of_isWordChar h with ⟨hl, hu⟩ | ⟨hl, hu⟩
  · refine ⟨c.toNat - 87, by omega, ?_⟩
    rw [digit36, if_neg (by omega), Nat.add_sub_cancel' (by omega), Char.ofNat_toNat]
  · refine ⟨c.toNat - 48, by omega, ?_⟩
    rw [digit36, if_pos (by omega), Nat.add_sub_cancel' (by omega), Char.ofNat_toNat]

theorem digitValue_lt {c : Char} (h : isWordChar c = true) : digitValue c < 36 := by
  obtain ⟨n, hn, rfl⟩ := exists_digit36 h
  rwa [digitValue_digit36 n hn]

theorem digit36_digitValue {c : Char} (h : isWordChar c = true) : digit36 (digitValue c) = c := by
  obtain ⟨n, hn, rfl⟩ := exists_digit36 h
  rw [digitValue_digit36 n hn]

/-! ## Numerals -/

/-- The number that digits are read as, the most significant first. -/
def ofBase36 (digits : List Char) : Nat :=
  digits.foldl (fun n c => n * 36 + digitValue c) 0

/-- Digits that are read as a number; zeros may stand in front. -/
structure IsNumeral (n : Nat) (digits : List Char) : Prop where
  ne_nil : digits ≠ []
  isWordChar : ∀ c ∈ digits, isWordChar c = true
  ofBase36_eq : ofBase36 digits = n

/-- The numeral that is shorter than any other of the same number. -/
def IsShortest (n : Nat) (digits : List Char) : Prop :=
  IsNumeral n digits ∧ ∀ others, IsNumeral n others → others = digits ∨ digits.length < others.length

theorem ofBase36_concat (digits : List Char) (c : Char) :
    ofBase36 (digits ++ [c]) = ofBase36 digits * 36 + digitValue c := by
  rw [ofBase36, List.foldl_append]
  rfl

theorem base36_of_lt {n : Nat} (h : n < 36) : base36 n = [digit36 n] := by
  rw [base36, if_pos h]

theorem base36_mul_add {m d : Nat} (hm : m ≠ 0) (hd : d < 36) :
    base36 (m * 36 + d) = base36 m ++ [digit36 d] := by
  have hdiv : (m * 36 + d) / 36 = m := by omega
  have hmod : (m * 36 + d) % 36 = d := by omega
  rw [base36, if_neg (by omega), hdiv, hmod]

/-- The form of a number is read as the number. -/
theorem ofBase36_base36 (n : Nat) : ofBase36 (base36 n) = n := by
  fun_induction base36 n with
  | case1 n h => simp [ofBase36, digitValue_digit36 n h]
  | case2 n h ih =>
    rw [ofBase36_concat, ih, digitValue_digit36 _ (Nat.mod_lt _ (by decide))]
    omega

theorem base36_inj {m n : Nat} : base36 m = base36 n ↔ m = n := by
  refine ⟨fun h => ?_, congrArg base36⟩
  rw [← ofBase36_base36 m, h, ofBase36_base36]

theorem isNumeral_base36 (n : Nat) : IsNumeral n (base36 n) :=
  ⟨base36_ne_nil n, isWordChar_of_mem_base36 n, ofBase36_base36 n⟩

/-- **The numerals of a number** are its form with zeros in front. -/
theorem IsNumeral.eq_replicate_append {n : Nat} {digits : List Char} (h : IsNumeral n digits) :
    ∃ k, digits = List.replicate k '0' ++ base36 n := by
  -- The last digit is the remainder, and what stands before it a numeral of the quotient.
  induction digits using List.reverseRecOn generalizing n with
  | nil => exact absurd rfl h.ne_nil
  | append_singleton front c ih =>
    have hc : ShortId.isWordChar c = true := h.isWordChar c (by simp)
    have hlt := digitValue_lt hc
    obtain rfl : ofBase36 front * 36 + digitValue c = n :=
      (ofBase36_concat front c).symm.trans h.ofBase36_eq
    by_cases hfront : front = []
    · subst hfront
      refine ⟨0, ?_⟩
      rw [ofBase36, List.foldl_nil, Nat.zero_mul, Nat.zero_add, base36_of_lt hlt,
        digit36_digitValue hc]
      rfl
    · obtain ⟨k, hk⟩ := ih ⟨hfront, fun d hd => h.isWordChar d (by simp [hd]), rfl⟩
      by_cases hz : ofBase36 front = 0
      · refine ⟨k + 1, ?_⟩
        rw [hz, base36_of_lt (by decide)] at hk
        rw [hz, Nat.zero_mul, Nat.zero_add, base36_of_lt hlt, digit36_digitValue hc,
          List.replicate_succ', hk]
        rfl
      · refine ⟨k, ?_⟩
        rw [base36_mul_add hz hlt, digit36_digitValue hc, ← List.append_assoc, ← hk]

theorem isShortest_base36 (n : Nat) : IsShortest n (base36 n) := by
  refine ⟨isNumeral_base36 n, fun others h => ?_⟩
  obtain ⟨k, rfl⟩ := h.eq_replicate_append
  cases k with
  | zero => exact .inl rfl
  | succ k =>
    refine .inr ?_
    rw [List.length_append, List.length_replicate]
    omega

/-! ## The letter in front -/

def startsWithDigit : List Char → Bool
  | [] => false
  | c :: _ => c.isDigit

theorem lettered_eq (digits : List Char) :
    lettered digits = if startsWithDigit digits then 'a' :: digits else digits := by
  cases digits <;> rfl

end VarLogic.ShortId
