/-
The shape of ids: a lowercase letter, and then lowercase letters and digits
(`isWord_ofText`). No id holds an uppercase letter, a blank, a hyphen or a
parenthesis, which is what keeps generated names apart and readable.
-/
import VarLogic.ShortId

namespace VarLogic.ShortId

/-- A character of an id. -/
def isWordChar (c : Char) : Bool := c.isLower || c.isDigit

theorem toNat_of_isWordChar {c : Char} (h : isWordChar c = true) :
    (97 ≤ c.toNat ∧ c.toNat ≤ 122) ∨ (48 ≤ c.toNat ∧ c.toNat ≤ 57) := by
  change ((decide (97 ≤ c.val) && decide (c.val ≤ 122)) ||
    (decide (48 ≤ c.val) && decide (c.val ≤ 57))) = true at h
  simpa [UInt32.le_iff_toNat_le, ← Char.toNat_val] using h

/-- A lowercase letter, and then lowercase letters and digits. -/
def IsWord (id : String) : Prop :=
  ∃ c cs, id.toList = c :: cs ∧ c.isLower = true ∧ ∀ d ∈ cs, isWordChar d = true

theorem IsWord.isWordChar {id : String} (h : IsWord id) {c : Char} (hc : c ∈ id.toList) :
    isWordChar c = true := by
  obtain ⟨d, ds, he, hd, hds⟩ := h
  rw [he, List.mem_cons] at hc
  rcases hc with rfl | hc
  · simp [ShortId.isWordChar, hd]
  · exact hds c hc

theorem isWordChar_digit36 : ∀ n < 36, isWordChar (digit36 n) = true := by decide

theorem isWordChar_of_mem_base36 (n : Nat) : ∀ c ∈ base36 n, isWordChar c = true := by
  fun_induction base36 n with
  | case1 n h => simpa using isWordChar_digit36 n h
  | case2 n h ih =>
    intro c hc
    rw [List.mem_append, List.mem_singleton] at hc
    rcases hc with hc | rfl
    · exact ih c hc
    · exact isWordChar_digit36 _ (Nat.mod_lt _ (by decide))

theorem base36_ne_nil (n : Nat) : base36 n ≠ [] := by
  unfold base36
  split <;> simp

theorem isWord_lettered {cs : List Char} (hn : cs ≠ []) (h : ∀ c ∈ cs, isWordChar c = true) :
    IsWord (String.ofList (lettered cs)) := by
  cases cs with
  | nil => exact absurd rfl hn
  | cons c cs =>
    have hc := h c (by simp)
    have hcs : ∀ d ∈ cs, isWordChar d = true := fun d hd => h d (by simp [hd])
    rw [lettered]
    split
    · exact ⟨'a', c :: cs, by simp, by decide, by simpa [hc] using hcs⟩
    · rename_i hd
      have hl : c.isLower = true := by simpa [isWordChar, hd] using hc
      exact ⟨c, cs, by simp, hl, hcs⟩

/-- Every id is a word. -/
theorem isWord_ofText (text : String) : IsWord (ofText text) :=
  isWord_lettered (base36_ne_nil _) (isWordChar_of_mem_base36 _)

end VarLogic.ShortId
