/-
The hash of a text in numbers. A step of the fold wraps at 32 bits and clears the
top one, which comes to multiplying by 31 and adding the unit modulo 2 ^ 31
(`toNat_step`). So a run of steps is the value of the units as digits to the base
31 (`toNat_foldl_step`), and the id is that number in base 36 (`ofText_shortest`).
-/
import Mathlib.Algebra.BigOperators.Fin
import Mathlib.Data.Nat.ModEq
import Mathlib.Tactic.Ring
import VarLogic.Proofs.ShortId.Numeral

namespace VarLogic.ShortId

/-! ## Folding -/

theorem toNat_step (hash : UInt32) (unit : Nat) :
    (step hash unit).toNat = (hash.toNat * 31 + unit) % 2 ^ 31 := by
  have hmask : (0x7FFFFFFF : UInt32).toNat = 2 ^ 31 - 1 := rfl
  have hlt := hash.toNat_lt
  rw [step, UInt32.toNat_and, hmask, Nat.and_two_pow_sub_one_eq_mod, UInt32.toNat_add,
    UInt32.toNat_sub, UInt32.toNat_shiftLeft, UInt32.toNat_ofNat', Nat.shiftLeft_eq]
  simp only [UInt32.reduceToNat, Nat.reduceMod, Nat.reducePow] at hlt ⊢
  omega

/-- The units weighted by powers of 31, from the last one on. -/
def weighted (units : List Nat) : Nat :=
  ∑ i : Fin units.length, units[i] * 31 ^ (units.length - 1 - i)

theorem weighted_cons (unit : Nat) (units : List Nat) :
    weighted (unit :: units) = unit * 31 ^ units.length + weighted units := by
  change (∑ i : Fin (units.length + 1), _) = _
  rw [Fin.sum_univ_succ]
  simp [weighted, Nat.sub_sub, Nat.add_comm]

/-- A run of steps moves the hash up by as many places and adds the units. -/
theorem toNat_foldl_step (units : List Nat) (hash : UInt32) :
    (units.foldl step hash).toNat ≡ hash.toNat * 31 ^ units.length + weighted units [MOD 2 ^ 31] := by
  induction units generalizing hash with
  | nil => simp [weighted, Nat.ModEq.refl]
  | cons unit units ih =>
    have hstep : (step hash unit).toNat ≡ hash.toNat * 31 + unit [MOD 2 ^ 31] := by
      rw [toNat_step]
      exact Nat.mod_modEq _ _
    calc ((unit :: units).foldl step hash).toNat
        ≡ (step hash unit).toNat * 31 ^ units.length + weighted units [MOD 2 ^ 31] := ih _
      _ ≡ (hash.toNat * 31 + unit) * 31 ^ units.length + weighted units [MOD 2 ^ 31] :=
        (hstep.mul_right _).add_right _
      _ = hash.toNat * 31 ^ (unit :: units).length + weighted (unit :: units) := by
        rw [weighted_cons, List.length_cons]
        ring

theorem toNat_fold_lt (text : String) : (fold text).toNat < 2 ^ 31 := by
  rw [fold]
  cases Text.utf16 text using List.reverseRecOn with
  | nil => decide
  | append_singleton units unit =>
    rw [List.foldl_concat, toNat_step]
    exact Nat.mod_lt _ (by decide)

theorem toNat_fold (text : String) : (fold text).toNat = weighted (Text.utf16 text) % 2 ^ 31 := by
  have h := toNat_foldl_step (Text.utf16 text) 0
  rw [UInt32.toNat_zero, Nat.zero_mul, Nat.zero_add] at h
  rw [← Nat.mod_eq_of_lt (toNat_fold_lt text)]
  exact h

/-! ## Ids -/

/-- A number below a power of 36 has no more digits than the exponent says. -/
theorem length_base36_le {n k : Nat} (h : n < 36 ^ (k + 1)) : (base36 n).length ≤ k + 1 := by
  induction k generalizing n with
  | zero => exact (congrArg List.length (base36_of_lt (by simpa using h))).le
  | succ k ih =>
    rw [base36]
    split
    · rw [List.length_singleton]
      omega
    · have hdiv : n / 36 < 36 ^ (k + 1) := by
        rwa [Nat.div_lt_iff_lt_mul (by decide), ← pow_succ]
      rw [List.length_append, List.length_singleton]
      exact Nat.succ_le_succ (ih hdiv)

theorem toList_ofText (text : String) :
    (ofText text).toList =
      if startsWithDigit (base36 (fold text).toNat) then 'a' :: base36 (fold text).toNat
      else base36 (fold text).toNat := by
  rw [ofText, String.toList_ofList, lettered_eq]

/-- Six digits are enough for 31 bits, and there may be the letter in front. -/
theorem length_ofText_le (text : String) : (ofText text).length ≤ 7 := by
  have hdigits : (base36 (fold text).toNat).length ≤ 6 :=
    length_base36_le ((toNat_fold_lt text).trans_le (by decide))
  rw [← String.length_toList, toList_ofText]
  split
  · exact Nat.succ_le_succ hdigits
  · omega

/-- **The id of a text is its hash in base 36.** The hash is the sum of the code
units of the text, each weighted by a power of 31, the last one by 1, modulo
2 ^ 31. The id is the shortest numeral of the hash, with an `a` in front just
where that starts with a digit; so it is a lowercase letter and at most six
lowercase letters and digits behind it. -/
theorem ofText_shortest (text : String) :
    (fold text).toNat =
        (∑ i : Fin (Text.utf16 text).length,
          (Text.utf16 text)[i] * 31 ^ ((Text.utf16 text).length - 1 - i)) % 2 ^ 31 ∧
      (∃ digits, IsShortest (fold text).toNat digits ∧
        (ofText text).toList = if startsWithDigit digits then 'a' :: digits else digits) ∧
      IsWord (ofText text) ∧ (ofText text).length ≤ 7 :=
  ⟨toNat_fold text, ⟨_, isShortest_base36 _, toList_ofText text⟩, isWord_ofText text,
    length_ofText_le text⟩

-- The last character is a pair of surrogates.
example : ofText "\"é€😀\"" = "oopta2" := by decide +kernel

end VarLogic.ShortId
