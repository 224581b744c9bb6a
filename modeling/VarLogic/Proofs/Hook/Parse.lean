/-
What a text has to be to parse as a hook: it starts as one, either as a
selector that mentions the element or with the keyword of an at-rule, a blank
and something else, and the check of its tokens finds no fault
(`parse_eq_ok`).
-/
import VarLogic.Hook.Parse

namespace VarLogic.Hook

/-- How a hook starts. -/
inductive Starts (text : String) : Hook → Prop where
  | selector : text.toList.head? ≠ some '@' → '&' ∈ text.toList → Starts text (.selector text)
  | atRule {rule : AtRule} {c : Char} {rest : List Char} :
      text.toList = rule.keyword.toList ++ c :: rest → Text.isBlank c = true →
      (∃ d ∈ rest, Text.isBlank d = false) → Starts text (.atRule rule text)

theorem prelude?_eq_some {rule : AtRule} {cs rest : List Char} :
    prelude? rule cs = some rest ↔
      ∃ c tail, rest = c :: tail ∧ cs = rule.keyword.toList ++ c :: tail ∧ Text.isBlank c = true := by
  unfold prelude?
  constructor
  · intro h
    dsimp only at h
    split at h
    · rename_i hp
      obtain ⟨tail, rfl⟩ := List.isPrefixOf_iff_prefix.1 hp
      rw [List.drop_left] at h
      split at h
      · cases h
      · rename_i c tail
        split at h
        · rename_i hc
          cases h
          exact ⟨c, tail, rfl, rfl, hc⟩
        · cases h
    · cases h
  · rintro ⟨c, tail, rfl, rfl, hc⟩
    have hp : rule.keyword.toList.isPrefixOf (rule.keyword.toList ++ c :: tail) = true :=
      List.isPrefixOf_iff_prefix.2 (List.prefix_append _ _)
    simp [hp, hc]

theorem findAtRule?_eq_some {cs rest : List Char} {rule : AtRule} :
    findAtRule? cs = some (rule, rest) ↔ prelude? rule cs = some rest := by
  -- No keyword starts like another one.
  have other : ∀ {a b : AtRule} {c : Char} {tail : List Char},
      (prelude? b (a.keyword.toList ++ c :: tail)).isSome → a = b := by
    intro a b c tail h
    obtain ⟨rest, hr⟩ := Option.isSome_iff_exists.1 h
    obtain ⟨d, tail', -, he, -⟩ := prelude?_eq_some.1 hr
    cases a <;> cases b <;> simp [AtRule.keyword] at he <;> rfl
  simp only [findAtRule?, AtRule.all]
  constructor
  · intro h
    obtain ⟨a, -, ha⟩ := List.exists_of_findSome?_eq_some h
    simp only [Option.map_eq_some_iff, Prod.mk.injEq] at ha
    obtain ⟨_, hr, rfl, rfl⟩ := ha
    exact hr
  · intro h
    obtain ⟨c, tail, rfl, rfl, -⟩ := prelude?_eq_some.1 h
    have hnone : ∀ b, rule ≠ b → prelude? b (rule.keyword.toList ++ c :: tail) = none := fun b hb => by
      cases hp : prelude? b (rule.keyword.toList ++ c :: tail) with
      | none => rfl
      | some rest => exact absurd (other (by rw [hp]; rfl)) hb
    cases rule <;> simp [List.findSome?, hnone, h]

theorem starts_head {text : String} {rule : AtRule} {c : Char} {rest : List Char}
    (h : text.toList = rule.keyword.toList ++ c :: rest) : text.toList.head? = some '@' := by
  rw [h]
  cases rule <;> simp [AtRule.keyword]

theorem bind_eq_ok {cs : List Char} {hook hook' : Hook} :
    (checkTokens cs >>= fun _ => Except.ok hook') = .ok hook ↔
      hook' = hook ∧ checkTokens cs = .ok () := by
  cases checkTokens cs with
  | error e => simp [bind, Except.bind]
  | ok u => simp [bind, Except.bind]

/-- **What a text has to be to parse as a hook.** -/
theorem parse_eq_ok {text : String} {hook : Hook} :
    parse text = .ok hook ↔ Starts text hook ∧ checkTokens text.toList = .ok () := by
  constructor
  · intro h
    unfold parse at h
    dsimp only at h
    split at h
    · split at h
      · cases h
      · rename_i rule rest hf
        split at h
        · cases h
        · rename_i hb
          obtain ⟨rfl, hc⟩ := bind_eq_ok.1 h
          obtain ⟨c, tail, rfl, htext, hblank⟩ := prelude?_eq_some.1 (findAtRule?_eq_some.1 hf)
          exact ⟨.atRule htext hblank (by simpa [hblank] using hb), hc⟩
    · rename_i hhead
      split at h
      · rename_i hany
        obtain ⟨rfl, hc⟩ := bind_eq_ok.1 h
        exact ⟨.selector hhead (by simpa using hany), hc⟩
      · cases h
  · rintro ⟨hs, hc⟩
    cases hs with
    | selector hhead hmem => simp [parse, hhead, hmem, hc, bind, Except.bind, pure, Except.pure]
    | @atRule rule c rest htext hblank hrest =>
      have hf : findAtRule? text.toList = some (rule, c :: rest) :=
        findAtRule?_eq_some.2 (prelude?_eq_some.2 ⟨c, rest, rfl, htext, hblank⟩)
      have hall : (c :: rest).all Text.isBlank = false := by simpa [hblank] using hrest
      simp [parse, starts_head htext, hf, hall, hc, bind, Except.bind, pure, Except.pure]

theorem Starts.text_eq {text : String} {hook : Hook} (h : Starts text hook) : hook.text = text := by
  cases h <;> rfl

theorem text_of_parse {text : String} {hook : Hook} (h : parse text = .ok hook) :
    hook.text = text := (parse_eq_ok.1 h).1.text_eq

end VarLogic.Hook
