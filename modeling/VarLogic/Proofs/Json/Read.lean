/-
Reading backwards. A tree that was read says what the text starts with: a mark,
and behind the mark of a container its parts, or its end (`read_of_raw?`).
-/
import VarLogic.Proofs.Json.Trees
import Mathlib.Data.List.DropRight

namespace VarLogic.Json

/-- A part that was read, and what was made of it. -/
theorem exists_part {α β : Type} (f : α → β) {part? : Option (α × List Char)} {b : β} {r : List Char}
    (h : (part?.bind fun p => some (f p.1, p.2)) = some (b, r)) :
    ∃ a, part? = some (a, r) ∧ f a = b := by
  simpa [Option.bind_eq_some_iff, and_comm] using h

/-- How a text starts from which a value was read, with `fuel` steps left for the
parts of the value: containers may lie `depth` deep, and `r` follows the value. -/
inductive Read (fuel : Nat) (cs : List Char) : Nat → Value → List Char → Prop where
  | string {depth : Nat} {rest r : List Char} {s : String} : skip cs = '"' :: rest →
      string? rest = some (some s, r) → Read fuel cs depth (.string s) r
  | noItems {depth : Nat} {rest r : List Char} : skip cs = '[' :: rest → skip rest = ']' :: r →
      Read fuel cs (depth + 1) (.array []) r
  | items {depth : Nat} {rest r : List Char} {trees : List Raw} {vs : List Value} :
      skip cs = '[' :: rest → (∀ back, skip rest ≠ ']' :: back) →
      rawItems? fuel (skip rest) = some (trees, r) → itemValues? depth trees = some vs →
      Read fuel cs (depth + 1) (.array vs) r
  | noMembers {depth : Nat} {rest r : List Char} : skip cs = '{' :: rest → skip rest = '}' :: r →
      Read fuel cs (depth + 1) (.object []) r
  | members {depth : Nat} {rest r : List Char} {trees : List (Option String × Raw)}
      {ms : List (String × Value)} : skip cs = '{' :: rest → (∀ back, skip rest ≠ '}' :: back) →
      rawMembers? fuel (skip rest) = some (trees, r) → memberValues? depth trees = some ms →
      Read fuel cs (depth + 1) (.object ms) r
  /-- Neither a string nor a container. -/
  | scalar {depth : Nat} {v : Value} {r : List Char} :
      (∀ c rest, skip cs = c :: rest → c ∉ ['"', '[', '{']) → (∀ s, v ≠ .string s) →
      (∀ vs, v ≠ .array vs) → (∀ ms, v ≠ .object ms) → Read fuel cs depth v r

/-- **What was read says how the text starts.** -/
theorem read_of_raw? {fuel depth : Nat} {cs r : List Char} {tree : Raw} {v : Value}
    (h : raw? fuel cs = some (tree, r)) (hv : tree.value? depth = some v) :
    ∃ f, fuel = f + 1 ∧ Read f cs depth v r := by
  obtain _ | fuel := fuel
  · cases h
  refine ⟨fuel, rfl, ?_⟩
  rw [raw?] at h
  split at h
  case h_1 hskip | h_2 hskip | h_3 hskip =>
    cases h
    cases hv
    refine .scalar ?_ (by simp) (by simp) (by simp)
    intro c rest hc
    rw [hskip] at hc
    cases hc
    decide
  case h_4 rest hskip =>
    obtain ⟨text, htext, rfl⟩ := exists_part Raw.string h
    simp only [Raw.value?, Option.map_eq_some_iff] at hv
    obtain ⟨s, rfl, rfl⟩ := hv
    exact .string hskip htext
  case h_5 rest hskip =>
    split at h
    · rename_i hrest
      cases h
      obtain ⟨depth, vs, rfl, hvs, rfl⟩ := value?_array.1 hv
      cases hvs
      exact .noItems hskip hrest
    · rename_i hrest
      obtain ⟨trees, htrees, rfl⟩ := exists_part Raw.array h
      obtain ⟨depth, vs, rfl, hvs, rfl⟩ := value?_array.1 hv
      exact .items hskip hrest htrees hvs
  case h_6 rest hskip =>
    split at h
    · rename_i hrest
      cases h
      obtain ⟨depth, ms, rfl, hms, rfl⟩ := value?_object.1 hv
      cases hms
      exact .noMembers hskip hrest
    · rename_i hrest
      obtain ⟨trees, htrees, rfl⟩ := exists_part Raw.object h
      obtain ⟨depth, ms, rfl, hms, rfl⟩ := value?_object.1 hv
      exact .members hskip hrest htrees hms
  case h_7 hstring harray hobject =>
    obtain ⟨literal, -, rfl⟩ := exists_part (fun l : NumberLiteral => Raw.number l.number?) h
    simp only [Raw.value?, Option.map_eq_some_iff] at hv
    obtain ⟨n, -, rfl⟩ := hv
    refine .scalar ?_ (by simp) (by simp) (by simp)
    intro c rest hc
    simp only [List.mem_cons, List.not_mem_nil, or_false, not_or]
    exact ⟨fun he => hstring rest (he ▸ hc), fun he => harray rest (he ▸ hc),
      fun he => hobject rest (he ▸ hc)⟩

/-! ## Marks -/

theorem expect?_eq {cs rest : List Char} {mark : Char} (h : skip cs = mark :: rest) :
    expect? mark cs = some rest := by
  simp [expect?, h]

theorem expect?_eq_none {cs : List Char} {mark : Char} (h : ∀ rest, skip cs ≠ mark :: rest) :
    expect? mark cs = none := by
  unfold expect?
  split
  · rfl
  · rename_i c rest hskip
    rw [if_neg]
    intro hc
    exact h rest (hc ▸ hskip)

/-! ## Parts -/

theorem rawItems?_eq_some {fuel depth : Nat} {cs r : List Char} {trees : List Raw}
    {vs : List Value} (h : rawItems? (fuel + 1) cs = some (trees, r))
    (hvs : itemValues? depth trees = some vs) :
    ∃ tree v rest, raw? fuel cs = some (tree, rest) ∧ tree.value? depth = some v ∧
      ((skip rest = ']' :: r ∧ vs = [v]) ∨
        ∃ back trees' vs', skip rest = ',' :: back ∧ rawItems? fuel back = some (trees', r) ∧
          itemValues? depth trees' = some vs' ∧ vs = v :: vs') := by
  simp only [rawItems?, Option.bind_eq_bind, Option.bind_eq_some_iff, Prod.exists] at h
  obtain ⟨tree, rest, htree, h⟩ := h
  split at h
  · rename_i hskip
    cases h
    obtain ⟨v, vs, hv, hnil, rfl⟩ := itemValues?_cons.1 hvs
    cases hnil
    exact ⟨tree, v, rest, htree, hv, .inl ⟨hskip, rfl⟩⟩
  · rename_i back hskip
    obtain ⟨trees', htrees, rfl⟩ := exists_part (tree :: ·) h
    obtain ⟨v, vs', hv, hvs', rfl⟩ := itemValues?_cons.1 hvs
    exact ⟨tree, v, rest, htree, hv, .inr ⟨back, trees', vs', hskip, htrees, hvs', rfl⟩⟩
  · cases h

theorem skip_skip (cs : List Char) : skip (skip cs) = skip cs :=
  List.dropWhile_idempotent isSpace cs

theorem key?_skip (cs : List Char) : key? (skip cs) = key? cs := by
  simp only [key?, expect?, skip_skip]

theorem rawMembers?_eq_some {fuel depth : Nat} {cs r : List Char}
    {trees : List (Option String × Raw)} {ms : List (String × Value)}
    (h : rawMembers? (fuel + 1) cs = some (trees, r)) (hms : memberValues? depth trees = some ms) :
    ∃ key rest tree v rest', key? cs = some (key, rest) ∧ raw? fuel rest = some (tree, rest') ∧
      tree.value? depth = some v ∧
        ((skip rest' = '}' :: r ∧ ms = [(key, v)]) ∨
          ∃ back trees' ms', skip rest' = ',' :: back ∧ rawMembers? fuel back = some (trees', r) ∧
            memberValues? depth trees' = some ms' ∧ ms = (key, v) :: ms') := by
  rw [rawMembers?] at h
  split at h
  case h_2 => cases h
  case h_1 quoted hquote =>
    simp only [Option.bind_eq_bind, Option.bind_eq_some_iff, Prod.exists] at h
    obtain ⟨key, behind, hstring, h⟩ := h
    split at h
    case h_2 => cases h
    case h_1 rest hcolon =>
      simp only [Option.bind_eq_some_iff, Prod.exists] at h
      obtain ⟨tree, rest', htree, h⟩ := h
      have hkey : key? cs = key.map (·, rest) := by
        cases key <;> simp [key?, expect?, hquote, hstring, hcolon]
      split at h
      · rename_i hskip
        cases h
        obtain ⟨key, v, ms, rfl, hv, hnil, rfl⟩ := memberValues?_cons.1 hms
        cases hnil
        exact ⟨key, rest, tree, v, rest', hkey, htree, hv, .inl ⟨hskip, rfl⟩⟩
      · rename_i back hskip
        obtain ⟨trees', htrees, rfl⟩ := exists_part ((key, tree) :: ·) h
        obtain ⟨key, v, ms', rfl, hv, hms', rfl⟩ := memberValues?_cons.1 hms
        exact ⟨key, rest, tree, v, rest', hkey, htree, hv,
          .inr ⟨back, trees', ms', hskip, htrees, hms', rfl⟩⟩
      · cases h

/-- There is a member where members were read. -/
theorem exists_cons_of_rawMembers? {fuel depth : Nat} {cs r : List Char}
    {trees : List (Option String × Raw)} {ms : List (String × Value)}
    (h : rawMembers? fuel cs = some (trees, r)) (hms : memberValues? depth trees = some ms) :
    ∃ m ms', ms = m :: ms' := by
  cases fuel with
  | zero => cases h
  | succ fuel =>
    obtain ⟨key, _, _, v, _, -, -, -, hend⟩ := rawMembers?_eq_some h hms
    rcases hend with ⟨-, rfl⟩ | ⟨_, _, ms', -, -, -, rfl⟩
    · exact ⟨(key, v), [], rfl⟩
    · exact ⟨(key, v), ms', rfl⟩

end VarLogic.Json
