/-
The selector that a hook is scoped by. Each ampersand in the text of a selector
hook becomes a star, which is meant to make a star of each reference to the element
and to leave everything else as it is (`RewritesElements`). The check of a hook
looks at tokens and the stars are put in for characters, so this holds exactly where
the ampersands of the hook stand apart (`rewritesElements_iff`). A hook may well have
others (`not_rewritesElements`).
-/
import VarLogic.Proofs.Css.StarredLexer
import VarLogic.Proofs.Hook.Accepted

namespace VarLogic.Hook

open Css

/-- The tokens of the selector are those of the hook with a star for each reference
to the element. -/
def RewritesElements (hook : Hook) : Prop :=
  tokens hook.scopedSelector.toList = (tokens hook.text.toList).map Token.starred

instance (hook : Hook) : Decidable (RewritesElements hook) :=
  inferInstanceAs (Decidable (tokens hook.scopedSelector.toList = _))

theorem toList_scopedSelector (text : String) :
    (selector text).scopedSelector.toList = starred text.toList :=
  String.toList_map

/-- No token of a hook is a bad one. -/
theorem ne_bad_of_checkTokens {cs : List Char} (h : checkTokens cs = .ok ()) :
    ∀ t ∈ tokens cs, t ≠ .badString ∧ t ≠ .badUrl := by
  obtain ⟨left, hwalk, -⟩ := checkTokens_eq_ok.1 h
  refine List.forall_mem_map.2 fun l hl => ?_
  obtain ⟨front, rest, hlex⟩ := List.append_of_mem hl
  rw [hlex] at hwalk
  have hbanned := hwalk.of_append_cons.1
  exact ⟨fun ht => hbanned (by rw [ht]; rfl), fun ht => hbanned (by rw [ht]; rfl)⟩

/-- **A selector hook is rewritten for its references to the element** exactly if no
ampersand is part of another token, such as a string, a name, a url or a comment, and
none stands behind a slash or in front of an equals sign. -/
theorem rewritesElements_iff {text : String} {hook : Hook} (hp : parse text = .ok hook)
    (hs : hook.isAtRule = false) : RewritesElements hook ↔ ElementsApart text.toList := by
  obtain ⟨hstarts, hcheck⟩ := parse_eq_ok.1 hp
  cases hstarts with
  | selector _ _ =>
    rw [RewritesElements, toList_scopedSelector]
    exact tokens_starred_iff (ne_bad_of_checkTokens hcheck)
  | atRule _ _ _ => cases hs

/-- References at three depths, and an ampersand in a url that is written as an
escape. -/
theorem rewritesElements_nested :
    parse ".dark &:not(:is(& > [title^='*='], url(\\26) &))" =
        .ok (.selector ".dark &:not(:is(& > [title^='*='], url(\\26) &))") ∧
      RewritesElements (.selector ".dark &:not(:is(& > [title^='*='], url(\\26) &))") := by
  have hp : parse ".dark &:not(:is(& > [title^='*='], url(\\26) &))" = .ok (.selector _) :=
    parse_selector (by decide) (by decide) (by decide +kernel)
  exact ⟨hp, (rewritesElements_iff hp rfl).2 (by decide +kernel)⟩

/-- A hook may have an ampersand in a string, a name, a comment or a url, and a
reference behind a slash or in front of an equals sign. -/
theorem not_rewritesElements :
    ["&[title=\"a&b\"]", "&.a\\&b", "&/*&*/", "&:is(url(a&b))", "&/&", "&[title&='a']"].Forall
      fun text => parse text = .ok (.selector text) ∧ ¬ RewritesElements (.selector text) := by
  refine List.forall_iff_forall_mem.2 fun text h => ?_
  simp only [List.mem_cons, List.not_mem_nil, or_false] at h
  rcases h with rfl | rfl | rfl | rfl | rfl | rfl <;>
    exact ⟨parse_selector (by decide) (by decide) (by decide +kernel), by decide +kernel⟩

end VarLogic.Hook
