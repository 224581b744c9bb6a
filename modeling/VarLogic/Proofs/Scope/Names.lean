/-
Names of conditions. Whatever a scope is built from has passed the check of its
name, and so have the names of the scopes around it (`Reachable.checkName`). So a
name in sight holds letters and digits only, and is none that means something
else (`plain_of_checkName`).
-/
import VarLogic.Proofs.Scope.Grouping

namespace VarLogic

/-- The check lets words of letters and digits through, but for the reserved ones. -/
theorem Definitions.plain_of_checkName {name : String} (h : checkName name = .ok ()) :
    (∀ c ∈ name.toList, c.isAlphanum = true) ∧ name ∉ reservedNames := by
  unfold checkName at h
  split at h
  · cases h
  · rename_i c cs hn
    split at h
    · cases h
    · rename_i hc
      split at h
      · cases h
      · rename_i hcs
        split at h
        · cases h
        · rename_i hr
          have hfirst : c.isAlphanum = true := by
            simp only [Bool.not_eq_true, Bool.not_eq_false'] at hc
            rw [Char.isAlphanum, hc, Bool.true_or]
          have hrest : ∀ d ∈ cs, d.isAlphanum = true := by simpa using hcs
          rw [hn, List.forall_mem_cons]
          exact ⟨⟨hfirst, hrest⟩, hr⟩

namespace Scope

variable {s s' : Scope} {definitions : Definitions}

theorem checkName_of_defineAll (h : s.defineAll definitions = .ok s') :
    ∀ d ∈ definitions, Definitions.checkName d.1 = .ok () := by
  induction definitions generalizing s with
  | nil => simp
  | cons d definitions ih =>
    obtain ⟨s₁, hd, hrest⟩ := defineAll_cons.1 h
    rw [List.forall_mem_cons]
    exact ⟨(define_eq_ok hd).1, ih hrest⟩

/-- A name in sight comes from the scope around or from a definition. -/
theorem checkName_of_create (parent : Option Scope) (h : create definitions parent = .ok s)
    (hp : ∀ name ∈ parent.elim [] names, Definitions.checkName name = .ok ()) :
    ∀ name ∈ s.names, Definitions.checkName name = .ok () := by
  intro name hn
  rw [names_eq h, List.mem_append, List.mem_filter] at hn
  rcases hn with hn | ⟨hn, -⟩
  · exact hp name hn
  · obtain ⟨d, hd, rfl⟩ := List.mem_map.1 hn
    rw [create_eq] at h
    exact checkName_of_defineAll h d hd

/-- **Every name in sight has passed the check.** -/
theorem Reachable.checkName (h : s.Reachable) :
    ∀ name ∈ s.names, Definitions.checkName name = .ok () := by
  induction h with
  | root h => exact checkName_of_create none h (by simp)
  | nest _ h ih => exact checkName_of_create (some _) h ih

end Scope

end VarLogic
