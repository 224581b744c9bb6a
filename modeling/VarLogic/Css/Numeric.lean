/-
Numbers, percentages and dimensions: digits with a fraction and an exponent,
and then a percent sign or a unit.
-/
import VarLogic.Css.Name

namespace VarLogic.Css

/-- A digit, or a point and a digit. -/
def startsDigits : List Char → Bool
  | '.' :: d :: _ => d.isDigit
  | d :: _ => d.isDigit
  | [] => false

/-- The point and its digits, if a digit follows the point. -/
def fraction : List Char → List Char × List Char
  | '.' :: d :: cs =>
    if d.isDigit then ('.' :: d :: cs.takeWhile Char.isDigit, cs.dropWhile Char.isDigit)
    else ([], '.' :: d :: cs)
  | cs => ([], cs)

/-- The exponent, if there is a digit in it. -/
def exponent : List Char → List Char × List Char
  | [] => ([], [])
  | e :: cs =>
    if e = 'e' ∨ e = 'E' then
      match cs with
      | [] => ([], [e])
      | s :: tail =>
        if s.isDigit then
          (e :: s :: tail.takeWhile Char.isDigit, tail.dropWhile Char.isDigit)
        else if s = '+' ∨ s = '-' then
          match tail with
          | d :: tail =>
            if d.isDigit then
              (e :: s :: d :: tail.takeWhile Char.isDigit, tail.dropWhile Char.isDigit)
            else ([], e :: s :: d :: tail)
          | [] => ([], [e, s])
        else ([], e :: s :: tail)
    else ([], e :: cs)

/-- A number behind its sign, with its percent sign or unit. -/
def numeric (sign : List Char) (cs : List Char) : Token × List Char :=
  let whole := cs.takeWhile Char.isDigit
  let f := fraction (cs.dropWhile Char.isDigit)
  let e := exponent f.2
  let text := sign ++ whole ++ f.1 ++ e.1
  match e.2 with
  | '%' :: rest => (.percentage text, rest)
  | rest =>
    if startsName rest then (.dimension text (name rest).1, (name rest).2)
    else (.number text, rest)

theorem fraction_suffix (cs : List Char) : (fraction cs).2 <:+ cs := by
  unfold fraction
  split
  · split
    · exact (List.dropWhile_suffix _).trans ((List.suffix_cons _ _).trans (List.suffix_cons _ _))
    · exact List.suffix_refl _
  · exact List.suffix_refl _

theorem exponent_suffix (cs : List Char) : (exponent cs).2 <:+ cs := by
  unfold exponent
  split
  · exact List.suffix_refl _
  · split
    · split
      · exact List.suffix_refl _
      · split
        · exact (List.dropWhile_suffix _).trans ((List.suffix_cons _ _).trans (List.suffix_cons _ _))
        · split
          · split
            · split
              · exact (List.dropWhile_suffix _).trans ((List.suffix_cons _ _).trans
                  ((List.suffix_cons _ _).trans (List.suffix_cons _ _)))
              · exact List.suffix_refl _
            · exact List.suffix_refl _
          · exact List.suffix_refl _
    · exact List.suffix_refl _

/-- What follows a number is a suffix of what follows its whole digits and its
fraction. -/
theorem numeric_suffix_of_fraction {sign cs rest : List Char}
    (h : (fraction (cs.dropWhile Char.isDigit)).2 <:+ rest) :
    (numeric sign cs).2 <:+ rest := by
  have he := (exponent_suffix (fraction (cs.dropWhile Char.isDigit)).2).trans h
  simp only [numeric]
  split
  · rename_i rest h
    rw [h] at he
    exact (List.suffix_cons _ _).trans he
  · split
    · exact (name_suffix _).trans he
    · exact he

theorem numeric_suffix (sign cs : List Char) : (numeric sign cs).2 <:+ cs :=
  numeric_suffix_of_fraction ((fraction_suffix _).trans (List.dropWhile_suffix _))

end VarLogic.Css
