/-
Numbers in front of a bracket. Digits, fractions and exponents leave it alone,
and a unit is a name.
-/
import VarLogic.Css.Numeric
import VarLogic.Proofs.Css.Name

namespace VarLogic.Css

variable {P : Prop}

theorem fraction_of_ne {cs : List Char} (h : ∀ d ds, cs = '.' :: d :: ds → d.isDigit = false) :
    fraction cs = ([], cs) := by
  unfold fraction
  split
  · rename_i d ds
    rw [h d ds rfl]
    rfl
  · rfl

theorem fraction_append (cs : List Char) {y : List Char} (hy : Bracketed y) :
    fraction (cs ++ y) = ((fraction cs).1, (fraction cs).2 ++ y) := by
  by_cases h : ∃ d ds, cs = '.' :: d :: ds ∧ d.isDigit = true
  · obtain ⟨d, ds, rfl, hd⟩ := h
    simp only [List.cons_append, fraction, hd, if_true,
      takeWhile_append (fun _ h => not_isDigit h) ds hy,
      dropWhile_append (fun _ h => not_isDigit h) ds hy]
  · have hcs : ∀ d ds, cs = '.' :: d :: ds → d.isDigit = false := fun d ds he =>
      Bool.eq_false_iff.2 fun hd => h ⟨d, ds, he, hd⟩
    rw [fraction_of_ne hcs, fraction_of_ne fun d ds he => ?_]
    obtain ⟨es, rfl⟩ := hy.cons_of_append (by decide) he
    cases es with
    | nil =>
      rcases hy with rfl | ⟨d', z, rfl, hd'⟩
      · cases he
      · rw [← (List.cons.inj (List.cons.inj he).2).1]
        exact not_isDigit hd'
    | cons e es => exact (List.cons.inj (List.cons.inj he).2).1 ▸ hcs e es rfl

theorem exponent_append (cs : List Char) {y : List Char} (hy : Bracketed y) :
    exponent (cs ++ y) = ((exponent cs).1, (exponent cs).2 ++ y) := by
  have htake : ∀ ds : List Char, (ds ++ y).takeWhile Char.isDigit = ds.takeWhile Char.isDigit :=
    fun ds => takeWhile_append (fun _ h => not_isDigit h) ds hy
  have hdrop : ∀ ds : List Char, (ds ++ y).dropWhile Char.isDigit = ds.dropWhile Char.isDigit ++ y :=
    fun ds => dropWhile_append (fun _ h => not_isDigit h) ds hy
  rcases hy with rfl | ⟨d, z, rfl, hd⟩
  · simp
  have hdigit := not_isDigit hd
  have hne : ∀ c, isBracket c = false → d ≠ c := fun c => ne_of_isBracket hd
  cases cs with
  | nil => simp [exponent, hne 'e' (by decide), hne 'E' (by decide)]
  | cons e cs =>
    by_cases he : e = 'e' ∨ e = 'E'
    · cases cs with
      | nil => simp [exponent, he, hdigit, hne '+' (by decide), hne '-' (by decide)]
      | cons s cs =>
        by_cases hs : s.isDigit = true
        · simp [exponent, he, hs, htake, hdrop]
        · by_cases hsign : s = '+' ∨ s = '-'
          · cases cs with
            | nil => simp [exponent, he, hs, hsign, hdigit]
            | cons e' cs =>
              by_cases he' : e'.isDigit = true
              · simp [exponent, he, hs, hsign, he', htake, hdrop]
              · simp [exponent, he, hs, hsign, he']
          · simp [exponent, he, hs, hsign]
    · simp [exponent, he]

/-- What follows the digits of a number, and the text of the number. -/
def afterDigits (text : List Char) : List Char → Token × List Char
  | '%' :: rest => (.percentage text, rest)
  | rest =>
    if startsName rest then (.dimension text (name rest).1, (name rest).2) else (.number text, rest)

theorem afterDigits_of_ne {text cs : List Char} (h : ∀ ds, cs ≠ '%' :: ds) :
    afterDigits text cs =
      if startsName cs then (.dimension text (name cs).1, (name cs).2) else (.number text, cs) := by
  unfold afterDigits
  split
  · exact absurd rfl (h _)
  · rfl

theorem afterDigits_decided (text : List Char) {cs : List Char} (hP : ['\\'] <:+ cs → P) :
    Decided P (afterDigits text) cs := by
  by_cases h : ∃ ds, cs = '%' :: ds
  · obtain ⟨ds, rfl⟩ := h
    exact .stop (.percentage text) ds fun y _ => rfl
  · have hne : ∀ y, Bracketed y → ∀ ds, cs ++ y ≠ '%' :: ds := fun y hy ds he => by
      obtain ⟨es, hes⟩ := hy.cons_of_append (by decide) he
      exact h ⟨es, hes⟩
    cases hs : startsName cs with
    | true =>
      refine (name_decided hP).step (.dimension text ·) fun y hy => ?_
      rw [afterDigits_of_ne (hne y hy), startsName_append cs hy, hs, if_pos rfl]
    | false =>
      refine .stop (.number text) cs fun y hy => ?_
      rw [afterDigits_of_ne (hne y hy), startsName_append cs hy, hs, if_neg Bool.false_ne_true]

/-- The text of a number behind its sign. -/
def numberText (sign cs : List Char) : List Char :=
  sign ++ cs.takeWhile Char.isDigit ++ (fraction (cs.dropWhile Char.isDigit)).1 ++
    (exponent (fraction (cs.dropWhile Char.isDigit)).2).1

/-- What follows the digits of a number. -/
def numberRest (cs : List Char) : List Char :=
  (exponent (fraction (cs.dropWhile Char.isDigit)).2).2

theorem numeric_eq (sign cs : List Char) :
    numeric sign cs = afterDigits (numberText sign cs) (numberRest cs) := rfl

theorem numeric_decided (sign : List Char) {cs : List Char} (hP : ['\\'] <:+ cs → P) :
    Decided P (numeric sign) cs := by
  have hsuffix : numberRest cs <:+ cs :=
    (exponent_suffix _).trans ((fraction_suffix _).trans (List.dropWhile_suffix _))
  refine (afterDigits_decided (numberText sign cs) fun h => hP (h.trans hsuffix)).step id fun y hy => ?_
  have hdrop := dropWhile_append (fun _ h => not_isDigit h) cs hy
  have hrest : numberRest (cs ++ y) = numberRest cs ++ y := by
    rw [numberRest, hdrop, fraction_append _ hy, exponent_append _ hy]
    rfl
  have htext : numberText sign (cs ++ y) = numberText sign cs := by
    rw [numberText, hdrop, takeWhile_append (fun _ h => not_isDigit h) cs hy, fraction_append _ hy,
      exponent_append _ hy]
    rfl
  rw [numeric_eq, htext, hrest]
  rfl

theorem startsDigits_append (cs : List Char) {y : List Char} (hy : Bracketed y) :
    startsDigits (cs ++ y) = startsDigits cs := by
  rcases hy with rfl | ⟨d, z, rfl, hd⟩
  · rw [List.append_nil]
  have hdot : d ≠ '.' := ne_of_isBracket hd (by decide)
  have hother : ∀ {c : Char} {ds : List Char}, c ≠ '.' → startsDigits (c :: ds) = c.isDigit :=
    fun {c ds} hc => by
      unfold startsDigits
      split
      · rename_i h
        exact absurd (List.cons.inj h).1 hc
      · rename_i h
        rw [(List.cons.inj h).1]
      · rename_i h
        cases h
  cases cs with
  | nil => exact (hother hdot).trans (not_isDigit hd)
  | cons c cs =>
    by_cases hc : c = '.'
    · subst hc
      cases cs with
      | nil => exact (not_isDigit hd).trans (by decide)
      | cons e es => rfl
    · rw [List.cons_append, hother hc, hother hc]

theorem head?_append (cs : List Char) {y : List Char} (hy : Bracketed y) :
    (cs ++ y).head?.any Char.isDigit = cs.head?.any Char.isDigit := by
  rcases hy with rfl | ⟨d, z, rfl, hd⟩
  · rw [List.append_nil]
  · cases cs with
    | nil => exact not_isDigit hd
    | cons c cs => rfl

end VarLogic.Css
