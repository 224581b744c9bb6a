/-
Props in another order. What is put into a style are the settings of the
`initial:` props and then those of the conditional ones, each in their order
(`applied_eq`), wherever the props stand among each other. So props that are
interleaved in another way make the same style (`resolve_interleaved`).
-/
import VarLogic.Proofs.Props.Meaning
import VarLogic.Proofs.Props.Routing

namespace VarLogic.Props

open Json (Value)

/-! ## Keys -/

theorem isInitialKey_iff {s : Scope} {key : String} :
    IsInitialKey key ↔ IsStyleKey s key ∧ isInitial key = true := by
  simp only [IsInitialKey, IsStyleKey, isInitial_iff, StartsInitial, ← splitKey?_eq_some]
  grind

theorem isConditionalKey_iff {s : Scope} {key : String} :
    IsConditionalKey s key ↔ IsStyleKey s key ∧ isInitial key = false := by
  rw [← Bool.not_eq_true]
  simp only [IsConditionalKey, IsStyleKey, isInitial_iff, StartsInitial, ← splitKey?_eq_some]
  grind

namespace Styler

variable {styler : Styler} {s : Scope}

/-! ## Groups of props -/

/-- The props with one prefix set what the style props among them set. -/
theorem settings_group {q : Bool → Bool} (props : List (String × Value)) :
    (styler.settings s props).filter (fun x => q x.condition.isNone) =
      styler.settings s (props.filter fun p => IsStyleKey s p.1 ∧ q (isInitial p.1)) := by
  have hstyle : (props.filter fun p => q (isInitial p.1)).filter (route s ·.1 ≠ .forward) =
      props.filter fun p => IsStyleKey s p.1 ∧ q (isInitial p.1) := by
    rw [List.filter_filter]
    exact List.filter_congr fun p _ => by simp [← route_ne_forward]
  rw [← settings_filter, ← settings_filter_route, hstyle]

/-- What is put into a style, group by group. -/
theorem applied_eq (props : List (String × Value)) :
    styler.applied s props =
      styler.defaults ++ (styler.settings s (props.filter (IsInitialKey ·.1)) ++
        styler.settings s (props.filter (IsConditionalKey s ·.1))) := by
  have hinitial : (styler.settings s props).filter (·.condition.isNone) =
      styler.settings s (props.filter (IsInitialKey ·.1)) := by
    simp only [isInitialKey_iff (s := s)]
    exact settings_group (q := id) props
  have hconditional : (styler.settings s props).filter (·.condition.isSome) =
      styler.settings s (props.filter (IsConditionalKey s ·.1)) := by
    have h : (styler.settings s props).filter (fun x => !x.condition.isNone) = _ :=
      settings_group (q := Bool.not) props
    simpa [isConditionalKey_iff] using h
  rw [applied, hinitial, hconditional]

/-- **The order between the groups does not matter.** Let two lists of props
have the same `initial:` props and the same conditional ones, each in the same
order, however they are interleaved and whatever other props are between them.
Then both make the same style; and with the other props the same as well, the
same is forwarded. -/
theorem resolve_interleaved (styler : Styler) (s : Scope) (props props' : List (String × Value))
    (hinitial : props.filter (IsInitialKey ·.1) = props'.filter (IsInitialKey ·.1))
    (hconditional : props.filter (IsConditionalKey s ·.1) = props'.filter (IsConditionalKey s ·.1)) :
    ∃ r r', styler.resolve s props = .ok r ∧ styler.resolve s props' = .ok r' ∧
      r.style = r'.style ∧
        (props.filter (¬ IsStyleKey s ·.1) = props'.filter (¬ IsStyleKey s ·.1) →
          r.forward = r'.forward) := by
  refine ⟨_, _, resolve_eq props, resolve_eq props', ?_, ?_⟩
  · rw [styleOf, styleOf, applied_eq, applied_eq, hinitial, hconditional]
  · intro hother
    simp only [filter_ordered]
    simpa [← route_ne_forward] using congrArg ordered hother

/-- The gold props in another interleaving, and a prop to forward. -/
def scatteredProps : List (String × Value) :=
  [("initial:color", .string "black"), ("lit:color", .string "gold"), ("id", .string "nav"),
    ("dim:color", .boolean true)]

theorem resolve_interleaved_gold :
    ∃ parent s r r', Scope.root Scope.litDefinitions = .ok parent ∧
      parent.nest Scope.shadeDefinitions = .ok s ∧
        whiteStyler.resolve s (("id", .string "nav") :: goldProps) = .ok r ∧
          whiteStyler.resolve s scatteredProps = .ok r' ∧
            r.style = r'.style ∧ r.forward = r'.forward := by
  have hany : ((Scope.root Scope.litDefinitions).toOption.bind fun parent =>
      (parent.nest Scope.shadeDefinitions).toOption).any (fun s => decide
        ((IsConditionalKey s "lit:color" ∧ IsConditionalKey s "dim:color" ∧
            ¬ IsConditionalKey s "initial:color" ∧ ¬ IsConditionalKey s "id") ∧
          IsStyleKey s "lit:color" ∧ IsStyleKey s "dim:color" ∧ IsStyleKey s "initial:color" ∧
            ¬ IsStyleKey s "id")) = true := by
    decide +kernel
  obtain ⟨parent, s, hparent, hs, hp⟩ := Scope.exists_nested_of_any hany
  obtain ⟨⟨hlit, hdim, hinitial, hid⟩, hlit', hdim', hinitial', hid'⟩ := of_decide_eq_true hp
  obtain ⟨r, r', hr, hr', hstyle, hforward⟩ := resolve_interleaved whiteStyler s
    (("id", .string "nav") :: goldProps) scatteredProps rfl
    (by simp [goldProps, scatteredProps, hlit, hdim, hinitial, hid])
  refine ⟨parent, s, r, r', hparent, hs, hr, hr', hstyle, hforward ?_⟩
  simp [goldProps, scatteredProps, hlit', hdim', hinitial', hid']

end Styler

end VarLogic.Props
