/-
Comments and strings in front of a bracket. They take it where their end mark
is missing, which is where they are read up to the end of the text.
-/
import VarLogic.Css.Delimited
import VarLogic.Proofs.Css.EndMark

namespace VarLogic.Css

variable {P : Prop}

/-! ## Comments -/

theorem comment_cons {c : Char} {cs : List Char} (h : ∀ ds, c = '*' → cs = '/' :: ds → False) :
    comment (c :: cs) = (c :: (comment cs).1, (comment cs).2) := comment.eq_3 c cs h

/-- A comment that goes on with `c` ends behind it. -/
theorem suffix_of_cons {c : Char} {cs : List Char} (h : ∀ ds, c = '*' → cs = '/' :: ds → False)
    (hs : ['*', '/'] <:+ c :: cs) : ['*', '/'] <:+ cs := by
  rcases List.suffix_cons_iff.1 hs with he | hs
  · exact (h [] (List.cons.inj he).1.symm (List.cons.inj he).2.symm).elim
  · exact hs

theorem comment_reads (cs : List Char) :
    (∃ body, cs = body ++ '*' :: '/' :: (comment cs).2) ∨
      ((comment cs).2 = [] ∧ ¬ ['*', '/'] <:+ cs) := by
  fun_induction comment cs with
  | case1 => exact .inr ⟨rfl, by decide⟩
  | case2 cs => exact .inl ⟨[], rfl⟩
  | case3 c cs h ih =>
    rcases ih with ⟨body, he⟩ | ⟨hnil, he⟩
    · exact .inl ⟨c :: body, by rw [List.cons_append, ← he]⟩
    · exact .inr ⟨hnil, fun hs => he (suffix_of_cons h hs)⟩

theorem comment_decided {cs : List Char} (hP : ¬ ['*', '/'] <:+ cs → P) : Decided P comment cs := by
  induction cs using comment.induct with
  | case1 =>
    refine .inr ⟨⟨rfl, fun d z hd => ?_⟩, hP (by decide)⟩
    rw [List.nil_append, comment_cons fun _ h _ => ne_of_isBracket hd (by decide) h]
    exact comment_suffix z
  | case2 cs => exact .stop [] cs fun y _ => rfl
  | case3 c cs h ih =>
    refine (ih fun hs => hP fun hs' => hs (suffix_of_cons h hs')).step (c :: ·) fun y hy =>
      comment_cons fun ds hc hds => ?_
    obtain ⟨es, hes⟩ := hy.cons_of_append (by decide) hds
    exact h es hc hes

/-! ## Strings -/

theorem of_isQuote {c : Char} (h : isQuote c = true) :
    isBracket c = false ∧ c ≠ '\\' ∧ isNewline c = false ∧ IsMark c := by
  have hc : c = '"' ∨ c = '\'' := by simpa [isQuote] using h
  rcases hc with rfl | rfl <;> exact ⟨by decide, by decide, by decide, by decide, by decide, by decide⟩

theorem dropLine_append {cs : List Char} (hcs : cs ≠ []) {y : List Char} (hy : Bracketed y) :
    dropLine (cs ++ y) = dropLine cs ++ y := by
  cases cs with
  | nil => exact absurd rfl hcs
  | cons c cs =>
    by_cases h : ∃ ds, c = '\r' ∧ cs = '\n' :: ds
    · obtain ⟨ds, rfl, rfl⟩ := h
      rfl
    · have hcs : ∀ ds, c = '\r' → cs = '\n' :: ds → False := fun ds hc hds => h ⟨ds, hc, hds⟩
      have hcy : ∀ ds, c = '\r' → cs ++ y = '\n' :: ds → False := fun ds hc hds => by
        obtain ⟨es, hes⟩ := hy.cons_of_append (by decide) hds
        exact hcs es hc hes
      rw [List.cons_append, dropLine.eq_2 _ _ hcs, dropLine.eq_2 _ _ hcy]

section String

variable {quote : Char}

theorem string_other {c : Char} (hc : c ≠ quote) (hn : isNewline c = false) (hb : c ≠ '\\')
    (cs : List Char) :
    string quote (c :: cs) = (string.prepend (if c = '\x00' then replacement else c)
      (string quote cs).1, (string quote cs).2) := by
  rw [string]
  simp [hc, hn, hb]

variable (hq : isQuote quote = true)
include hq

theorem string_escape {cs : List Char} (hcs : cs ≠ []) (hl : startsLine cs = false) :
    string quote ('\\' :: cs) =
      (string.prepend (escape cs).1 (string quote (escape cs).2).1, (string quote (escape cs).2).2) := by
  rw [string]
  simp [(of_isQuote hq).2.1.symm, show isNewline '\\' = false by decide, hcs, hl]

theorem string_line {cs : List Char} (hcs : cs ≠ []) (hl : startsLine cs = true) :
    string quote ('\\' :: cs) = string quote (dropLine cs) := by
  rw [string]
  simp [(of_isQuote hq).2.1.symm, show isNewline '\\' = false by decide, hcs, hl]

/-- An escaped newline stands before any end mark. -/
theorem dropLine_inside {cs : List Char} (hl : startsLine cs = true) :
    ∃ front, Inside quote front ∧ '\\' :: cs = front ++ dropLine cs := by
  unfold dropLine
  split
  · rename_i cs
    have hn : '\n' ≠ quote := fun hn => by
      have h := (of_isQuote hq).2.2.1
      rw [← hn] at h
      cases h
    exact ⟨['\\', '\r', '\n'], .escaped (.plain (by decide) hn .nil), rfl⟩
  · rename_i c cs _
    exact ⟨['\\', c], .escaped .nil, rfl⟩
  · cases hl

/-- A string reaches its quote, or it is read up to the end of the text. -/
theorem string_reads {cs : List Char} (h : (string quote cs).1 ≠ .badString) :
    Reaches quote cs (string quote cs).2 ∨ ((string quote cs).2 = [] ∧ Unended quote cs) := by
  have hprepend : ∀ c t, t = Token.badString → string.prepend c t = .badString := fun c t ht => by
    rw [ht]
    rfl
  fun_induction string quote cs with
  | case1 => exact .inr ⟨rfl, [], .nil, .inl rfl⟩
  | case2 cs => exact .inl ⟨[], .nil, rfl⟩
  | case3 c cs _ _ => exact absurd rfl h
  | case4 => exact .inr ⟨rfl, [], .nil, .inr rfl⟩
  | case5 cs _ hl _ _ ih =>
    obtain ⟨front, hfront, he⟩ := dropLine_inside hq hl
    rw [he]
    exact (ih h).imp (·.append hfront) fun h => ⟨h.1, h.2.append hfront⟩
  | case6 cs hcs _ _ _ more ih =>
    obtain ⟨front, hfront, he⟩ := escape_inside (of_isQuote hq).2.2.2 hcs
    rw [he]
    exact (ih fun hb => h (hprepend _ _ hb)).imp (·.append hfront) fun h => ⟨h.1, h.2.append hfront⟩
  | case7 c cs hc _ hb more ih =>
    exact (ih fun hb => h (hprepend _ _ hb)).imp (·.cons hb hc) fun h => ⟨h.1, h.2.cons hb hc⟩

omit hq in
theorem string_token (quote : Char) (cs : List Char) :
    (∃ v, (string quote cs).1 = .string v) ∨ (string quote cs).1 = .badString := by
  have hprepend : ∀ c t, (∃ v, t = Token.string v) ∨ t = .badString →
      (∃ v, string.prepend c t = .string v) ∨ string.prepend c t = .badString := fun c t ht => by
    rcases ht with ⟨v, rfl⟩ | rfl
    · exact .inl ⟨c :: v, rfl⟩
    · exact .inr rfl
  fun_induction string quote cs with
  | case1 => exact .inl ⟨[], rfl⟩
  | case2 => exact .inl ⟨[], rfl⟩
  | case3 => exact .inr rfl
  | case4 => exact .inl ⟨[], rfl⟩
  | case5 _ _ _ _ _ ih => exact ih
  | case6 cs _ _ _ _ more ih => exact hprepend _ _ ih
  | case7 c cs _ _ _ more ih => exact hprepend _ _ ih

theorem string_bracket {d : Char} (hd : isBracket d = true) (z : List Char) :
    (string quote (d :: z)).2 = (string quote z).2 := by
  rw [string_other (ne_of_isBracket hd (of_isQuote hq).1) (of_isBracket hd).2.1 (ne_of_isBracket hd (by decide))]

theorem string_decided {cs : List Char} (hP : Unended quote cs → P) :
    Decided P (string quote) cs := by
  induction cs using string.induct quote with
  | case1 =>
    refine .inr ⟨⟨by simp [string], fun d z hd => ?_⟩, hP ⟨[], .nil, .inl rfl⟩⟩
    rw [List.nil_append, string_bracket hq hd]
    exact string_suffix quote z
  | case2 cs => exact .stop (.string []) cs fun y _ => by simp [string]
  | case3 c cs hc hn =>
    refine .stop .badString (c :: cs) fun y _ => ?_
    rw [List.cons_append, string]
    simp [hc, hn]
  | case4 =>
    refine .inr ⟨⟨?_, fun d z hd => ?_⟩, hP ⟨[], .nil, .inr rfl⟩⟩
    · rw [string]
      simp [(of_isQuote hq).2.1.symm, show isNewline '\\' = false by decide]
    · have hl : startsLine (d :: z) = false := (of_isBracket hd).2.1
      rw [List.cons_append, List.nil_append, string_escape hq (by simp) hl, escape_bracket hd]
      exact string_suffix quote z
  | case5 cs hcs hl _ _ ih =>
    obtain ⟨front, hfront, he⟩ := dropLine_inside hq hl
    refine (ih fun h => hP (he ▸ h.append hfront)).step id fun y hy => ?_
    rw [List.cons_append, string_line hq (by simp [hcs]) (by rw [startsLine_append cs hy, hl]),
      dropLine_append hcs hy]
    rfl
  | case6 cs hcs hl _ _ ih =>
    have hl : startsLine cs = false := by simpa using hl
    obtain ⟨front, hfront, he⟩ := escape_inside (of_isQuote hq).2.2.2 hcs
    refine (ih fun h => hP (he ▸ h.append hfront)).step (string.prepend (escape cs).1) fun y hy => ?_
    rw [List.cons_append, string_escape hq (by simp [hcs]) (by rw [startsLine_append cs hy, hl]),
      escape_append hcs hy]
  | case7 c cs hc hn hb ih =>
    refine (ih fun h => hP (h.cons hb hc)).step
      (string.prepend (if c = '\x00' then replacement else c)) fun y _ => ?_
    exact string_other hc (by simpa using hn) hb _

end String

end VarLogic.Css
