/-
Scanning conditions. Where a value was read, scanning finds the condition that the
value is, and goes on behind it; where the value is no condition, scanning stops
(`scans`). By induction on the fuel of the reader: a part of a value is read with
less of it.
-/
import VarLogic.Condition.Scan
import VarLogic.Proofs.Condition.Faults
import VarLogic.Proofs.Json.Read

namespace VarLogic.Condition

open Json (Value Raw skip raw? rawItems? rawMembers? itemValues? memberValues? key? expect?)

/-- Scanning agrees with the values read with some fuel. -/
def ScansValues (fuel : Nat) : Prop :=
  ∀ {fuel' depth : Nat} {cs r : List Char} {tree : Raw} {v : Value}, fuel ≤ fuel' →
    raw? fuel cs = some (tree, r) → tree.value? depth = some v →
      scan? fuel' depth cs = (ofValue v).toOption.map (·, r)

/-- Scanning agrees with the items read with some fuel. -/
def ScansItems (fuel : Nat) : Prop :=
  ∀ {fuel' depth : Nat} {cs r : List Char} {trees : List Raw} {vs : List Value}, fuel ≤ fuel' →
    rawItems? fuel cs = some (trees, r) → itemValues? depth trees = some vs →
      scanItems? fuel' depth cs = (ofValues vs).toOption.map (·, r)

/-! ## Items -/

theorem toOption_ofValues_cons (v : Value) (vs : List Value) :
    (ofValues (v :: vs)).toOption =
      (ofValue v).toOption.bind fun c => (ofValues vs).toOption.map (c :: ·) := by
  rw [ofValues]
  cases ofValue v with
  | error why => rfl
  | ok c => cases ofValues vs <;> rfl

theorem scansItems_succ {fuel : Nat} (hv : ScansValues fuel) (hi : ScansItems fuel) :
    ScansItems (fuel + 1) := by
  intro fuel' depth cs r trees vs hfuel hread hvs
  obtain ⟨fuel', rfl⟩ := Nat.exists_eq_add_of_le' (show 1 ≤ fuel' by omega)
  obtain ⟨tree, v, rest, htree, hvalue, hrest⟩ := Json.rawItems?_eq_some hread hvs
  rw [scanItems?, hv (by omega) htree hvalue]
  rcases hrest with ⟨hskip, rfl⟩ | ⟨back, trees', vs', hskip, htrees, hvs', rfl⟩
  · rw [toOption_ofValues_cons]
    cases (ofValue v).toOption with
    | none => rfl
    | some c => simp [hskip, ofValues, Except.toOption]
  · have hmore := hi (show fuel ≤ fuel' by omega) htrees hvs'
    rw [toOption_ofValues_cons]
    cases (ofValue v).toOption with
    | none => rfl
    | some c => cases hof : (ofValues vs').toOption <;> simp [hskip, hmore, hof]

/-! ## Operands -/

theorem scanOperands?_eq_none {fuel depth : Nat} {cs : List Char}
    (h : ∀ rest, skip cs ≠ '[' :: rest) : scanOperands? fuel depth cs = none := by
  cases fuel with
  | zero => rfl
  | succ fuel =>
    cases depth with
    | zero => rfl
    | succ depth => rw [scanOperands?, Json.expect?_eq_none h, Option.bind_eq_bind, Option.bind_none]

theorem scanOperands?_eq {fuel : Nat} (hi : ∀ f < fuel, ScansItems f) {fuel' depth : Nat}
    {cs r : List Char} {tree : Raw} {v : Value} (hfuel : fuel ≤ fuel')
    (hread : raw? fuel cs = some (tree, r)) (hvalue : tree.value? depth = some v) :
    scanOperands? fuel' depth cs = (operands v).toOption.map (·, r) := by
  obtain ⟨fuel, rfl, hstart⟩ := Json.read_of_raw? hread hvalue
  obtain ⟨fuel', rfl⟩ := Nat.exists_eq_add_of_le' (show 1 ≤ fuel' by omega)
  cases hstart with
  | noItems hskip hrest =>
    rw [scanOperands?, Json.expect?_eq hskip]
    simp [hrest, operands, ofValues, Except.toOption]
  | items hskip hrest htrees hvs =>
    rw [scanOperands?, Json.expect?_eq hskip, Option.bind_eq_bind, Option.bind_some]
    split
    · rename_i back h
      exact absurd h (hrest back)
    · rw [hi fuel (by omega) (by omega) htrees hvs, operands]
  | string hskip | noMembers hskip | members hskip =>
    rw [scanOperands?_eq_none (by simp [hskip])]
    rfl
  | scalar hskip _ harray =>
    rw [operands_eq_error harray, scanOperands?_eq_none fun rest h => by simpa using hskip _ _ h]
    rfl

/-- The condition of an operator. -/
theorem toOption_ofValue_single (operator : String) (operand : Value) :
    (ofValue (.object [(operator, operand)])).toOption =
      if operator = "and" then (operands operand).toOption.map .and
      else if operator = "or" then (operands operand).toOption.map .or
      else if operator = "not" then (ofValue operand).toOption.map .not
      else none := by
  rw [ofValue]
  split_ifs
  · cases operands operand <;> rfl
  · cases operands operand <;> rfl
  · cases ofValue operand <;> rfl
  · rfl

theorem scanOperand?_eq {fuel : Nat} (hv : ScansValues fuel) (hi : ∀ f < fuel, ScansItems f)
    {fuel' depth : Nat} {operator : String} {cs r : List Char} {tree : Raw} {v : Value}
    (hfuel : fuel < fuel') (hread : raw? fuel cs = some (tree, r))
    (hvalue : tree.value? depth = some v) :
    scanOperand? fuel' depth operator cs =
      (ofValue (.object [(operator, v)])).toOption.map (·, r) := by
  obtain ⟨fuel', rfl⟩ := Nat.exists_eq_add_of_le' (show 1 ≤ fuel' by omega)
  have hlist := scanOperands?_eq hi (show fuel ≤ fuel' by omega) hread hvalue
  have hnot := hv (show fuel ≤ fuel' by omega) hread hvalue
  rw [scanOperand?, hlist, hnot, toOption_ofValue_single]
  split_ifs
  · cases (operands v).toOption <;> rfl
  · cases (operands v).toOption <;> rfl
  · cases (ofValue v).toOption <;> rfl
  · rfl

/-! ## Values -/

/-- A second member is a fault, whatever the first one is. -/
theorem toOption_ofValue_mixed (m other : String × Value) (others : List (String × Value)) :
    (ofValue (.object (m :: other :: others))).toOption = none := by
  cases h : ofValue (.object (m :: other :: others)) with
  | error why => rfl
  | ok c =>
    rw [ofValue_eq_ok_iff] at h
    cases c <;> simp [toValue] at h

theorem scan?_eq_none {fuel depth : Nat} {cs : List Char}
    (h : ∀ c rest, skip cs = c :: rest → c ≠ '"' ∧ c ≠ '{') : scan? fuel depth cs = none := by
  cases fuel with
  | zero => rfl
  | succ fuel =>
    rw [scan?]
    split
    · rename_i rest hskip
      exact absurd rfl (h _ _ hskip).1
    · rename_i rest hskip
      exact absurd rfl (h _ _ hskip).2
    · rfl

/-- **One value is scanned**, if the parts of values are. -/
theorem scansValues_of_lt {fuel : Nat} (hv : ∀ f < fuel, ScansValues f)
    (hi : ∀ f < fuel, ScansItems f) : ScansValues fuel := by
  intro fuel' depth cs r tree v hfuel hread hvalue
  obtain ⟨fuel, rfl, hstart⟩ := Json.read_of_raw? hread hvalue
  obtain ⟨fuel', rfl⟩ := Nat.exists_eq_add_of_le' (show 1 ≤ fuel' by omega)
  cases hstart with
  | string hskip htext =>
    rw [scan?]
    simp [hskip, htext, ofValue, Except.toOption]
  | noItems hskip | items hskip =>
    rw [scan?_eq_none (by simp [hskip])]
    rfl
  | noMembers hskip hrest =>
    rw [scan?]
    simp [hskip, key?, expect?, hrest, ofValue, Except.toOption]
  | @members depth rest r trees ms hskip hrest htrees hms =>
    cases fuel with
    | zero => cases htrees
    | succ fuel =>
      obtain ⟨operator, behind, tree, operand, rest', hkey, htree, hoperand, hend⟩ :=
        Json.rawMembers?_eq_some htrees hms
      rw [Json.key?_skip] at hkey
      have hscan : scanOperand? fuel' depth operator behind = _ :=
        scanOperand?_eq (hv fuel (by omega)) (fun f hf => hi f (by omega)) (by omega) htree hoperand
      rw [scan?]
      simp only [hskip, hkey, hscan, Option.bind_eq_bind, Option.bind_some]
      rcases hend with ⟨hskip', rfl⟩ | ⟨back, _, ms', hskip', htrees', hms', rfl⟩
      · cases (ofValue (.object [(operator, operand)])).toOption with
        | none => rfl
        | some c => simp [Json.expect?_eq hskip']
      · obtain ⟨other, others, rfl⟩ := Json.exists_cons_of_rawMembers? htrees' hms'
        have hnone : expect? '}' rest' = none := Json.expect?_eq_none (by simp [hskip'])
        rw [toOption_ofValue_mixed]
        cases (ofValue (.object [(operator, operand)])).toOption with
        | none => rfl
        | some c => simp [hnone]
  | scalar hskip hstring _ hobject =>
    have hmark : ∀ c rest, skip cs = c :: rest → c ≠ '"' ∧ c ≠ '{' := by
      intro c rest h
      have hc := hskip c rest h
      simp only [List.mem_cons, List.not_mem_nil, or_false, not_or] at hc
      exact ⟨hc.1, hc.2.2⟩
    rw [(Fault.wrongType hstring hobject).ofValue_eq, scan?_eq_none hmark]
    rfl

/-- **Scanning agrees with reading**, whatever is read. -/
theorem scans (fuel : Nat) : ScansValues fuel ∧ ScansItems fuel := by
  induction fuel using Nat.strong_induction_on with
  | h fuel ih =>
    have hvalues : ScansValues fuel :=
      scansValues_of_lt (fun f hf => (ih f hf).1) fun f hf => (ih f hf).2
    refine ⟨hvalues, ?_⟩
    cases fuel with
    | zero => exact fun _ h => by cases h
    | succ fuel => exact scansItems_succ (ih fuel (by omega)).1 (ih fuel (by omega)).2

end VarLogic.Condition
