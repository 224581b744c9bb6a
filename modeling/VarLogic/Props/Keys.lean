/-
Keys of props, said of their texts. A key is cut at its first colon; a style prop
has the name of a property behind the cut, and before it `initial` or the name of
a condition in sight.
-/
import VarLogic.Props.Resolve

namespace VarLogic.Props

/-- A key cut at its first colon. -/
structure Cut (key first rest : String) : Prop where
  eq : key = first ++ ":" ++ rest
  colon : ':' ∉ first.toList

/-- Splitting a key cuts it. -/
theorem splitKey?_eq_some {key first rest : String} :
    splitKey? key = some (first, rest) ↔ Cut key first rest := by
  unfold splitKey?
  dsimp only
  constructor
  · intro h
    have hkey := List.takeWhile_append_dropWhile (p := (· ≠ ':')) (l := key.toList)
    have hhead := List.head?_dropWhile_not (· ≠ ':') key.toList
    split at h
    · cases h
    · rename_i c cs hd
      obtain ⟨rfl, rfl⟩ := Prod.mk.inj (Option.some.inj h)
      rw [hd] at hkey hhead
      obtain rfl : c = ':' := by simpa using hhead
      constructor
      · rw [← String.toList_inj, String.toList_append, String.toList_append, List.append_assoc]
        simp only [String.toList_ofList]
        exact hkey.symm
      · rw [String.toList_ofList]
        intro hm
        exact absurd (List.all_eq_true.1 List.all_takeWhile ':' hm) (by simp)
  · intro h
    have hkey : key.toList = first.toList ++ ':' :: rest.toList := by simp [h.eq]
    have hfirst : ∀ c ∈ first.toList, decide (c ≠ ':') = true := by
      intro c hc
      rw [decide_eq_true_eq]
      intro hcolon
      exact h.colon (hcolon ▸ hc)
    rw [hkey, List.takeWhile_append_of_pos hfirst, List.dropWhile_append_of_pos hfirst]
    simp

theorem Cut.unique {key first first' rest rest' : String} (h : Cut key first rest)
    (h' : Cut key first' rest') : first = first' ∧ rest = rest' := by
  have heq := (splitKey?_eq_some.2 h).symm.trans (splitKey?_eq_some.2 h')
  exact Prod.mk.inj (Option.some.inj heq)

/-- What is said of the two sides of a cut can be decided by cutting. -/
instance {p : String → String → Prop} [∀ first rest, Decidable (p first rest)] (key : String) :
    Decidable (∃ first rest, Cut key first rest ∧ p first rest) :=
  match h : splitKey? key with
  | none => .isFalse fun ⟨first, rest, hcut, _⟩ => by
      rw [splitKey?_eq_some.2 hcut] at h
      cases h
  | some (first, rest) => decidable_of_iff (p first rest) <| by
      constructor
      · intro hp
        exact ⟨first, rest, splitKey?_eq_some.1 h, hp⟩
      · intro hex
        obtain ⟨first', rest', hcut, hp⟩ := hex
        obtain ⟨rfl, rfl⟩ := hcut.unique (splitKey?_eq_some.1 h)
        exact hp

/-- The key starts with `initial:`, whatever comes after. -/
def StartsInitial (key : String) : Prop :=
  ∃ first rest, Cut key first rest ∧ first = initialPrefix

/-- The key of a prop that sets properties always. -/
def IsInitialKey (key : String) : Prop :=
  ∃ first name, Cut key first name ∧ first = initialPrefix ∧ name ≠ ""

/-- The key of a prop that sets properties while a condition in sight holds. -/
def IsConditionalKey (scope : Scope) (key : String) : Prop :=
  ∃ first name, Cut key first name ∧ first ≠ initialPrefix ∧ first ∈ scope.names ∧ name ≠ ""

/-- The key of a style prop. -/
def IsStyleKey (scope : Scope) (key : String) : Prop :=
  ∃ first name, Cut key first name ∧ (first = initialPrefix ∨ first ∈ scope.names) ∧ name ≠ ""

instance : DecidablePred StartsInitial :=
  fun _ => inferInstanceAs (Decidable (∃ _ _, _ ∧ _))

instance : DecidablePred IsInitialKey :=
  fun _ => inferInstanceAs (Decidable (∃ _ _, _ ∧ _))

instance (scope : Scope) : DecidablePred (IsConditionalKey scope) :=
  fun _ => inferInstanceAs (Decidable (∃ _ _, _ ∧ _))

instance (scope : Scope) : DecidablePred (IsStyleKey scope) :=
  fun _ => inferInstanceAs (Decidable (∃ _ _, _ ∧ _))

end VarLogic.Props
