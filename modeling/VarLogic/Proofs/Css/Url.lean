/-
Unquoted urls in front of a bracket. A parenthesis ends them, other brackets
they take. What cannot be a url is a bad one, which takes them as well.
-/
import VarLogic.Proofs.Css.EndMark
import VarLogic.Css.Delimited

namespace VarLogic.Css

variable {P : Prop}

theorem isMark_paren : IsMark ')' := ⟨by decide, by decide, by decide⟩

theorem afterBadUrl_cons {c : Char} {cs : List Char} (hc : c ≠ ')')
    (hp : ∀ ds, c = '\\' → cs = ')' :: ds → False) (hb : ∀ ds, c = '\\' → cs = '\\' :: ds → False) :
    afterBadUrl (c :: cs) = afterBadUrl cs := afterBadUrl.eq_5 c cs hc hp hb

/-- A bracket behind a bad url that is not closed is part of it. -/
theorem afterBadUrl_bracket {d : Char} (hd : isBracket d = true) (z : List Char) :
    afterBadUrl (d :: z) <:+ z := by
  by_cases hc : d = ')'
  · subst hc
    exact List.suffix_refl z
  · have hb : d ≠ '\\' := ne_of_isBracket hd (by decide)
    rw [afterBadUrl_cons hc (fun _ h => absurd h hb) (fun _ h => absurd h hb)]
    exact afterBadUrl_suffix z

theorem afterBadUrl_decided (hP : P) (t : Token) (cs : List Char) :
    Decided P (fun cs => (t, afterBadUrl cs)) cs := by
  induction cs using afterBadUrl.induct with
  | case1 => exact .inr ⟨⟨rfl, fun d z hd => afterBadUrl_bracket hd z⟩, hP⟩
  | case2 cs => exact .stop t cs fun y _ => rfl
  | case3 cs ih => exact ih.step id fun y _ => rfl
  | case4 cs ih => exact ih.step id fun y _ => rfl
  | case5 c cs hc hp hb ih =>
    by_cases hcs : c = '\\' ∧ cs = []
    · obtain ⟨rfl, rfl⟩ := hcs
      refine .inr ⟨⟨rfl, fun d z hd => ?_⟩, hP⟩
      by_cases hd' : d = ')'
      · subst hd'
        exact afterBadUrl_suffix z
      · have hb : d ≠ '\\' := ne_of_isBracket hd (by decide)
        have hread : afterBadUrl ('\\' :: d :: z) = afterBadUrl (d :: z) :=
          afterBadUrl_cons (by decide) (fun _ _ h => hd' (List.cons.inj h).1)
            (fun _ _ h => hb (List.cons.inj h).1)
        change afterBadUrl ('\\' :: d :: z) <:+ z
        rw [hread]
        exact afterBadUrl_bracket hd z
    · refine ih.step id fun y hy => ?_
      have hp' : ∀ ds, c = '\\' → cs ++ y = ')' :: ds → False := fun ds hcb hds => by
        cases cs with
        | nil => exact hcs ⟨hcb, rfl⟩
        | cons e es => exact hp es hcb (by rw [(List.cons.inj hds).1])
      have hb' : ∀ ds, c = '\\' → cs ++ y = '\\' :: ds → False := fun ds hcb hds => by
        obtain ⟨es, hes⟩ := hy.cons_of_append (by decide) hds
        exact hb es hcb hes
      change (t, afterBadUrl (c :: (cs ++ y))) = (t, afterBadUrl (cs ++ y))
      rw [afterBadUrl_cons hc hp' hb']

theorem urlEnd_decided {value cs : List Char}
    (hP : (urlEnd value cs).1 = .badUrl ∨ Unended ')' cs → P) : Decided P (urlEnd value) cs := by
  induction cs with
  | nil =>
    refine .inr ⟨⟨rfl, fun d z hd => ?_⟩, hP (.inr ⟨[], .nil, .inl rfl⟩)⟩
    simp only [List.nil_append, urlEnd, (of_isBracket hd).1]
    split
    · exact List.suffix_refl z
    · exact afterBadUrl_suffix z
  | cons c cs ih =>
    by_cases hc : c = ')'
    · exact .stop (.url value) cs fun y _ => by simp [urlEnd, hc]
    · cases hs : isSpace c with
      | true =>
        have hread : urlEnd value (c :: cs) = urlEnd value cs := by simp [urlEnd, hc, hs]
        have hb : c ≠ '\\' := by
          rintro rfl
          cases hs
        refine (ih fun h => hP (h.imp (fun h => by rw [hread, h]) (·.cons hb hc))).step id fun y _ => ?_
        simp [urlEnd, hc, hs]
      | false =>
        have hP : P := hP (.inl (by simp [urlEnd, hc, hs]))
        exact (afterBadUrl_decided hP .badUrl cs).step id fun y _ => by simp [urlEnd, hc, hs]

/-- A character that stands for itself in an unquoted url. -/
def isPlainUrl (c : Char) : Bool :=
  !isSpace c && c != ')' && !isUnprintable c && c != '"' && c != '\'' && c != '(' && c != '\\'

theorem urlBody_plain {c : Char} (hc : isPlainUrl c = true) (value cs : List Char) :
    urlBody value (c :: cs) = urlBody ((if c = '\x00' then replacement else c) :: value) cs := by
  simp only [isPlainUrl, Bool.and_eq_true, Bool.not_eq_eq_eq_not, Bool.not_true, bne_iff_ne, ne_eq] at hc
  rw [urlBody]
  simp [hc]

theorem urlBody_space {c : Char} (hs : isSpace c = true) (value cs : List Char) :
    urlBody value (c :: cs) = urlEnd value.reverse (c :: cs) := by
  rw [urlBody]
  simp [hs]

theorem urlBody_stray {c : Char} (hs : ¬ isSpace c = true) (hc : c ≠ ')')
    (hb : (isUnprintable c || c = '"' || c = '\'' || c = '(') = true) (value cs : List Char) :
    urlBody value (c :: cs) = (.badUrl, afterBadUrl cs) := by
  rw [urlBody]
  simp only [hs, hc, hb, if_true, if_false, Bool.false_eq_true]

theorem urlBody_line {cs : List Char} (h : startsLine cs = true) (value : List Char) :
    urlBody value ('\\' :: cs) = (.badUrl, afterBadUrl cs) := by
  rw [urlBody]
  simp [show isSpace '\\' = false by decide, show isUnprintable '\\' = false by decide, h]

theorem urlBody_escape {cs : List Char} (h : startsLine cs = false) (value : List Char) :
    urlBody value ('\\' :: cs) = urlBody ((escape cs).1 :: value) (escape cs).2 := by
  rw [urlBody]
  simp [show isSpace '\\' = false by decide, show isUnprintable '\\' = false by decide, h]

theorem urlBody_bracket {d : Char} (hd : isBracket d = true) (value z : List Char) :
    (urlBody value (d :: z)).2 <:+ z := by
  rcases isBracket_iff.1 hd with rfl | rfl | rfl | rfl
  · rw [urlBody_plain (by decide)]
    exact urlBody_suffix _ z
  · rw [urlBody_plain (by decide)]
    exact urlBody_suffix _ z
  · rw [urlBody]
    exact List.suffix_refl z
  · rw [urlBody_plain (by decide)]
    exact urlBody_suffix _ z

theorem urlBody_decided {value cs : List Char}
    (hP : (urlBody value cs).1 = .badUrl ∨ Unended ')' cs → P) : Decided P (urlBody value) cs := by
  induction value, cs using urlBody.induct with
  | case1 value =>
    exact .inr ⟨⟨by simp [urlBody], fun d z hd => urlBody_bracket hd value z⟩,
      hP (.inr ⟨[], .nil, .inl rfl⟩)⟩
  | case2 value c cs hs =>
    rw [urlBody_space hs] at hP
    exact (urlEnd_decided hP).step id fun y _ => urlBody_space hs value (cs ++ y)
  | case3 value cs =>
    refine .stop (.url value.reverse) cs fun y _ => ?_
    rw [List.cons_append, urlBody]
    rfl
  | case4 value c cs hs hc hb =>
    have hP : P := hP (.inl (by rw [urlBody_stray hs hc hb]))
    exact (afterBadUrl_decided hP .badUrl cs).step id fun y _ => urlBody_stray hs hc hb value (cs ++ y)
  | case5 value cs hl =>
    have hP : P := hP (.inl (by rw [urlBody_line hl]))
    refine (afterBadUrl_decided hP .badUrl cs).step id fun y hy => ?_
    have hy' : startsLine (cs ++ y) = true := by rw [startsLine_append cs hy, hl]
    exact urlBody_line hy' value
  | case6 value cs hl _ _ _ ih =>
    have hl : startsLine cs = false := by simpa using hl
    by_cases hcs : cs = []
    · subst hcs
      refine .inr ⟨⟨by rw [urlBody_escape hl]; simp [escape, urlBody], fun d z hd => ?_⟩,
        hP (.inr ⟨[], .nil, .inr rfl⟩)⟩
      have hd' : startsLine (d :: z) = false := (of_isBracket hd).2.1
      rw [List.cons_append, List.nil_append, urlBody_escape hd', escape_bracket hd]
      exact urlBody_suffix _ z
    · obtain ⟨front, hfront, he⟩ := escape_inside isMark_paren hcs
      rw [urlBody_escape hl] at hP
      refine (ih fun h => hP (h.imp id fun h => he ▸ h.append hfront)).step id fun y hy => ?_
      rw [List.cons_append, urlBody_escape (by rw [startsLine_append cs hy, hl]),
        escape_append hcs hy]
      rfl
  | case7 value c cs hs hc hb hbs ih =>
    have hp : isPlainUrl c = true := by simp_all [isPlainUrl]
    rw [urlBody_plain hp] at hP
    exact (ih fun h => hP (h.imp id (·.cons hbs hc))).step id fun y _ => urlBody_plain hp value (cs ++ y)

/-! ## Where a url ends -/

/-- A url reaches its parenthesis, or it is read up to the end of the text. -/
theorem urlEnd_reads {value cs : List Char} (h : (urlEnd value cs).1 ≠ .badUrl) :
    Reaches ')' cs (urlEnd value cs).2 ∨ ((urlEnd value cs).2 = [] ∧ Unended ')' cs) := by
  induction cs with
  | nil => exact .inr ⟨rfl, [], .nil, .inl rfl⟩
  | cons c cs ih =>
    by_cases hc : c = ')'
    · exact .inl ⟨[], .nil, by simp [urlEnd, hc]⟩
    · cases hs : isSpace c with
      | true =>
        have hread : urlEnd value (c :: cs) = urlEnd value cs := by simp [urlEnd, hc, hs]
        have hb : c ≠ '\\' := by
          rintro rfl
          cases hs
        rw [hread] at h ⊢
        exact (ih h).imp (·.cons hb hc) fun h => ⟨h.1, h.2.cons hb hc⟩
      | false => exact absurd (by simp [urlEnd, hc, hs]) h

theorem urlBody_reads {value cs : List Char} (h : (urlBody value cs).1 ≠ .badUrl) :
    Reaches ')' cs (urlBody value cs).2 ∨ ((urlBody value cs).2 = [] ∧ Unended ')' cs) := by
  fun_induction urlBody value cs with
  | case1 => exact .inr ⟨rfl, [], .nil, .inl rfl⟩
  | case2 => exact urlEnd_reads h
  | case3 value cs => exact .inl ⟨[], .nil, rfl⟩
  | case4 => exact absurd rfl h
  | case5 => exact absurd rfl h
  | case6 value cs hl _ _ _ ih =>
    by_cases hcs : cs = []
    · subst hcs
      exact .inr ⟨by simp [escape, urlBody], [], .nil, .inr rfl⟩
    · obtain ⟨front, hfront, he⟩ := escape_inside isMark_paren hcs
      rw [he]
      exact (ih h).imp (·.append hfront) fun h => ⟨h.1, h.2.append hfront⟩
  | case7 value c cs _ hc _ hb ih =>
    exact (ih h).imp (·.cons hb hc) fun h => ⟨h.1, h.2.cons hb hc⟩

/-- A parenthesis ends the url that a text before the end mark has left open. -/
theorem urlEnd_close {value cs v : List Char} (h : Inside ')' cs) (z : List Char) :
    urlEnd value (cs ++ ')' :: z) = (.url v, z) ↔ urlEnd value cs = (.url v, []) := by
  induction cs with
  | nil => simp [urlEnd]
  | cons c cs ih =>
    by_cases hc : c = ')'
    · rw [hc] at h
      exact absurd h (not_inside_stop (by decide) cs)
    · cases hs : isSpace c with
      | true =>
        have hb : c ≠ '\\' := by
          rintro rfl
          cases hs
        have hread : ∀ ds, urlEnd value (c :: ds) = urlEnd value ds := fun ds => by
          simp [urlEnd, hc, hs]
        rw [List.cons_append, hread, hread, ih ((inside_cons hb hc cs).1 h)]
      | false => simp [urlEnd, hc, hs]

theorem urlBody_close {value cs v : List Char} (h : Inside ')' cs) (z : List Char) :
    urlBody value (cs ++ ')' :: z) = (.url v, z) ↔ urlBody value cs = (.url v, []) := by
  induction value, cs using urlBody.induct with
  | case1 value => simp [urlBody, show isSpace ')' = false by decide]
  | case2 value c cs hs =>
    rw [List.cons_append, urlBody_space hs, urlBody_space hs, ← List.cons_append, urlEnd_close h]
  | case3 value cs => exact absurd h (not_inside_stop (by decide) cs)
  | case4 value c cs hs hc hb =>
    rw [List.cons_append, urlBody_stray hs hc hb, urlBody_stray hs hc hb]
    simp
  | case5 value cs hl =>
    have hy : startsLine (cs ++ ')' :: z) = true := by
      rw [startsLine_append cs (bracketed_cons (by decide) z), hl]
    rw [List.cons_append, urlBody_line hy, urlBody_line hl]
    simp
  | case6 value cs hl _ _ _ ih =>
    have hl : startsLine cs = false := by simpa using hl
    have hy : Bracketed (')' :: z) := bracketed_cons (by decide) z
    have hcs : cs ≠ [] := by
      rintro rfl
      cases h with
      | plain hb _ _ => exact hb rfl
    obtain ⟨front, hfront, he⟩ := escape_inside isMark_paren hcs
    rw [he, hfront.append_iff] at h
    rw [List.cons_append, urlBody_escape (by rw [startsLine_append cs hy, hl]), escape_append hcs hy,
      ih h, urlBody_escape hl]
  | case7 value c cs hs hc hb hbs ih =>
    have hp : isPlainUrl c = true := by simp_all [isPlainUrl]
    rw [List.cons_append, urlBody_plain hp, urlBody_plain hp]
    exact ih ((inside_cons hbs hc cs).1 h)

theorem urlEnd_token (value cs : List Char) :
    (∃ v, (urlEnd value cs).1 = .url v) ∨ (urlEnd value cs).1 = .badUrl := by
  induction cs with
  | nil => exact .inl ⟨value, rfl⟩
  | cons c cs ih =>
    simp only [urlEnd]
    split
    · exact .inl ⟨value, rfl⟩
    · split
      · exact ih
      · exact .inr rfl

theorem urlBody_token (value cs : List Char) :
    (∃ v, (urlBody value cs).1 = .url v) ∨ (urlBody value cs).1 = .badUrl := by
  fun_induction urlBody value cs with
  | case1 => exact .inl ⟨_, rfl⟩
  | case2 => exact urlEnd_token _ _
  | case3 => exact .inl ⟨_, rfl⟩
  | case4 => exact .inr rfl
  | case5 => exact .inr rfl
  | case6 _ _ _ _ _ _ ih => exact ih
  | case7 _ _ _ _ _ _ _ ih => exact ih

/-! ## What follows the opening parenthesis -/

theorem url?_of_body {cs body : List Char} (h : cs.dropWhile isSpace = body)
    (hd : ∀ ds, body ≠ '"' :: ds) (hs : ∀ ds, body ≠ '\'' :: ds) :
    url? cs = some (urlBody [] body) := by
  unfold url?
  rw [h]
  split
  · exact absurd rfl (hd _)
  · exact absurd rfl (hs _)
  · rfl

/-- What follows `url(` is a quoted string, or else the rest of a url. -/
theorem url?_cases (cs : List Char) :
    (∀ y, Bracketed y → url? (cs ++ y) = none) ∨
      ∀ y, Bracketed y → url? (cs ++ y) = some (urlBody [] (cs.dropWhile isSpace ++ y)) := by
  have hdrop : ∀ y, Bracketed y → (cs ++ y).dropWhile isSpace = cs.dropWhile isSpace ++ y :=
    fun y hy => dropWhile_append (fun d hd => (of_isBracket hd).1) cs hy
  by_cases hq : ∃ q ds, (q = '"' ∨ q = '\'') ∧ cs.dropWhile isSpace = q :: ds
  · obtain ⟨q, ds, hq, hds⟩ := hq
    refine .inl fun y hy => ?_
    unfold url?
    rw [hdrop y hy, hds]
    rcases hq with rfl | rfl <;> rfl
  · have hne : ∀ q, (q = '"' ∨ q = '\'') → ∀ y, Bracketed y → ∀ ds,
        cs.dropWhile isSpace ++ y ≠ q :: ds := fun q hq' y hy ds he => by
      obtain ⟨es, hes⟩ := hy.cons_of_append (by rcases hq' with rfl | rfl <;> decide) he
      exact hq ⟨q, es, hq', hes⟩
    exact .inr fun y hy =>
      url?_of_body (hdrop y hy) (hne _ (.inl rfl) y hy) (hne _ (.inr rfl) y hy)

end VarLogic.Css
