/-
What the end checks look at. They read the last characters of a comment, a
string or a url; for a comment and a string that tells whether the end mark is
there, for a url only whether a parenthesis comes last.
-/
import VarLogic.Hook.Parse
import VarLogic.Proofs.Css.Ended

namespace VarLogic.Hook

open Css

/-- Whether an end is looked for where one has to be, and found. -/
def Checked (l : Lexeme) : Prop :=
  match l.token with
  | .comment _ => endsComment l.text = true
  | .string _ => endsString l.text = true
  | .url _ => endsUrl l.text = true
  | _ => True

/-! ## Backslashes -/

/-- How many backslashes a text ends in. -/
def backslashes (cs : List Char) : Nat := (cs.reverse.takeWhile (· == '\\')).length

theorem backslashes_cons {c : Char} (hc : c ≠ '\\') (cs : List Char) :
    backslashes (c :: cs) = backslashes cs := by
  simp only [backslashes, List.reverse_cons, List.takeWhile_append]
  split
  · rename_i h
    simpa [hc] using h.symm
  · rfl

/-- An escape in front does not change whether their number is even. -/
theorem backslashes_escaped (c : Char) (cs : List Char) :
    backslashes ('\\' :: c :: cs) % 2 = backslashes cs % 2 := by
  simp only [backslashes, List.reverse_cons, List.append_assoc, List.takeWhile_append]
  split
  · rename_i h
    by_cases hc : c = '\\'
    · simp [hc, h]
    · simp [hc, h]
  · rfl

section
variable {stop : Char}

theorem even_backslashes {cs : List Char} (h : Inside stop cs) : backslashes cs % 2 = 0 := by
  induction h with
  | nil => rfl
  | plain hb _ _ ih => rw [backslashes_cons hb, ih]
  | escaped _ ih => rw [backslashes_escaped, ih]

/-- The mark is escaped where it stands in front of the end mark. -/
theorem odd_backslashes (hs : stop ≠ '\\') {text cs : List Char} (h : Inside stop text)
    (he : text = cs ++ [stop]) : backslashes cs % 2 = 1 := by
  induction h generalizing cs with
  | nil => simp at he
  | @plain c text hb hc h ih =>
    cases cs with
    | nil => exact absurd (List.cons.inj he).1 hc
    | cons d cs =>
      simp only [List.cons_append, List.cons.injEq] at he
      obtain ⟨rfl, he⟩ := he
      rw [backslashes_cons hb, ih he]
  | @escaped c text h ih =>
    cases cs with
    | nil => exact absurd (List.cons.inj he).1.symm hs
    | cons d cs =>
      simp only [List.cons_append, List.cons.injEq] at he
      obtain ⟨rfl, he⟩ := he
      cases cs with
      | nil => rfl
      | cons e cs =>
        simp only [List.cons_append, List.cons.injEq] at he
        obtain ⟨rfl, he⟩ := he
        rw [backslashes_escaped, ih he]

end

/-! ## Comments, strings and urls -/

theorem endsString_iff {quote : Char} {body : List Char} :
    endsString (quote :: body) = true ↔ ∃ cs, body = cs ++ [quote] ∧ backslashes cs % 2 = 0 := by
  rcases List.eq_nil_or_concat body with rfl | ⟨cs, c, rfl⟩
  · simp [endsString]
  · simp only [endsString, backslashes, List.concat_eq_append, List.reverse_append, List.reverse_cons,
      List.reverse_nil, List.nil_append, List.cons_append, Bool.and_eq_true, beq_iff_eq]
    constructor
    · rintro ⟨rfl, h⟩
      exact ⟨cs, rfl, h⟩
    · rintro ⟨cs', he, h⟩
      obtain ⟨rfl, hc⟩ := List.append_inj' he rfl
      exact ⟨(List.cons.inj hc).1, h⟩

theorem endsComment_iff {body : List Char} :
    endsComment ('/' :: '*' :: body) = true ↔ ['*', '/'] <:+ body := by
  simp only [endsComment, Bool.and_eq_true, decide_eq_true_eq, List.isSuffixOf_iff_suffix,
    List.length_cons]
  constructor
  · rintro ⟨hlen, h⟩
    rcases List.suffix_cons_iff.1 h with he | h
    · cases he
    · rcases List.suffix_cons_iff.1 h with he | h
      · obtain rfl := (List.cons.inj he).2
        simp at hlen
      · exact h
  · intro h
    have hlen := h.length_le
    simp only [List.length_cons, List.length_nil] at hlen
    exact ⟨by omega, (h.trans (List.suffix_cons _ _)).trans (List.suffix_cons _ _)⟩

theorem checked_of_isEnded {l : Lexeme} (h : l.IsEnded) : Checked l := by
  obtain ⟨t, text⟩ := l
  cases t with
  | comment _ =>
    obtain ⟨body, rfl⟩ := h
    exact endsComment_iff.2 (List.suffix_append body _)
  | string _ =>
    obtain ⟨quote, body, rfl, hbody⟩ := h
    exact endsString_iff.2 ⟨body, rfl, even_backslashes hbody⟩
  | url _ =>
    obtain ⟨body, rfl, -⟩ := h
    simp [Checked, endsUrl]
  | _ => trivial

/-- Only a url can pass the check although its end mark is missing: its last
character is a parenthesis, but an escaped one. -/
theorem url_of_checked {l : Lexeme} (hcut : l.IsCut) (h : Checked l) (hstring : l.token ≠ .badString)
    (hurl : l.token ≠ .badUrl) :
    (∃ v, l.token = .url v) ∧ Inside ')' l.text ∧ l.text.getLast? = some ')' := by
  obtain ⟨t, text⟩ := l
  cases t with
  | comment _ =>
    obtain ⟨body, rfl, hbody⟩ := hcut
    exact absurd (endsComment_iff.1 h) hbody
  | string _ =>
    obtain ⟨quote, body, hq, rfl, hbody⟩ := hcut
    have hs : quote ≠ '\\' := by
      rintro rfl
      cases hq
    obtain ⟨cs, rfl, heven⟩ := endsString_iff.1 h
    obtain ⟨all, hall, he | he⟩ := hbody
    · have := odd_backslashes hs hall he.symm
      omega
    · exact absurd (by simpa using congrArg List.getLast? he) hs
  | url v =>
    have hlast : text.getLast? = some ')' := by simpa [Checked, endsUrl] using h
    obtain ⟨body, hbody, rfl | rfl⟩ := hcut
    · exact ⟨⟨v, rfl⟩, hbody, hlast⟩
    · simp at hlast
  | badString => exact absurd rfl hstring
  | badUrl => exact absurd rfl hurl
  | _ => exact hcut.elim

end VarLogic.Hook
