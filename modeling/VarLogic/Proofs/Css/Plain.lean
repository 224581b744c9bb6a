/-
Texts without brackets, quotes, slashes, backslashes and at-signs. Their tokens
neither open nor close anything, none of them is an at-keyword, and no bracket
behind the text touches them.
-/
import VarLogic.Proofs.Css.Rules

namespace VarLogic.Css

theorem ne_of_isPlain {c d : Char} (hc : isPlain c = true) (hd : isPlain d = false) : c ≠ d :=
  fun h => by rw [h, hd] at hc; cases hc

section
variable {cs : List Char} (h : ∀ d ∈ cs, isPlain d = true)
include h

theorem not_cons_paren {ds : List Char} (hs : ds <:+ cs) (es : List Char) : ds ≠ '(' :: es := by
  rintro rfl
  exact ne_of_isPlain (h '(' (hs.subset (by simp))) (by decide) rfl

theorem identLike_plain : (identLike cs).1.isPlain = true := by
  rw [identLike_of_ne (not_cons_paren h (name_suffix cs))]
  rfl

end

theorem token_plain {c : Char} {cs : List Char} (h : ∀ d ∈ c :: cs, isPlain d = true) :
    (token c cs).1.isPlain = true := by
  have hc := h c (by simp)
  cases token_starts c cs with
  | plain ht => exact ht
  | sign hs _ => exact absurd rfl (ne_of_isPlain hc hs)
  | comment ds hs _ => exact absurd hs (ne_of_isPlain hc (by decide))
  | quote hq =>
    have hquote : c = '"' ∨ c = '\'' := by simpa [isQuote] using hq
    rcases hquote with rfl | rfl <;> cases hc
  | ident hident =>
    have htoken : token c cs = identLike (c :: cs) := by simpa using hident [] (.inl rfl)
    rw [htoken]
    exact identLike_plain h

/-- The tokens of a plain text are plain. -/
theorem lexemes_plain {x : List Char} (h : ∀ c ∈ x, isPlain c = true) :
    ∀ l ∈ lexemes x, l.token.isPlain = true := by
  fun_induction lexemes x with
  | case1 => simp
  | case2 c cs rest ih =>
    rw [List.forall_mem_cons]
    refine ⟨token_plain h, ih fun d hd => h d ?_⟩
    exact List.mem_cons_of_mem c ((token_suffix c cs).subset hd)

theorem solid_of_plain {x : List Char} (h : ∀ c ∈ x, isPlain c = true) : Solid x := by
  rcases solid_or_open x with hs | ⟨front, c, cs, ho⟩
  · exact hs
  · exfalso
    have hmem : ∀ d ∈ c :: cs, isPlain d = true := fun d hd => h d (by
      rw [← ho.whole]
      exact List.mem_append_right _ hd)
    rcases ho.cause with hb | hcut
    · exact ne_of_isPlain (hmem '\\' (hb.subset (by simp))) (by decide) rfl
    · have hd := isDelimited_of_isCut hcut
      rw [isDelimited_of_isPlain (token_plain hmem)] at hd
      cases hd

theorem closer?_of_plain {t : Token} (h : t.isPlain = true) : closer? t = none := by
  cases t <;> first | rfl | cases h

/-- Plain lexemes in front keep what is nested so. -/
theorem Nested.append_plain {banned : Token → Bool} {ks ls : List Lexeme}
    (hks : ∀ l ∈ ks, l.token.isPlain = true ∧ banned l.token = false) (h : Nested banned ls) :
    Nested banned (ks ++ ls) := by
  induction ks with
  | nil => exact h
  | cons k ks ih =>
    obtain ⟨hk, hb⟩ := hks k (by simp)
    exact .token (closer?_of_plain hk) hb (ih fun l hl => hks l (by simp [hl]))

theorem not_closeCurly_of_plain {t : Token} (h : t.isPlain = true) : (t == .closeCurly) = false := by
  cases t <;> first | rfl | cases h

theorem not_endsPrelude_of_plain {t : Token} (h : t.isPlain = true) : endsPrelude false t = false := by
  cases t <;> first | rfl | cases h

/-- No plain lexeme is an at-keyword. -/
theorem keyword?_of_plain {ks : List Lexeme} (h : ∀ l ∈ ks, l.token.isPlain = true) :
    keyword? ks = none := by
  unfold keyword?
  cases hf : ks.find? fun l => !isSkipped l.token with
  | none => rfl
  | some l =>
    have hl := h l (List.mem_of_find?_eq_some hf)
    obtain ⟨t, text⟩ := l
    cases t <;> first | rfl | cases hl

end VarLogic.Css
