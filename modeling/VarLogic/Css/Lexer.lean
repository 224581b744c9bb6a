/-
CSS tokenization. The first character decides which reader takes over; what
follows a token is a suffix of what followed that character, so a text is the
concatenation of its lexemes (`flatten_lexemes`). Nothing is refused.
-/
import VarLogic.Css.Delimited
import VarLogic.Css.Numeric

namespace VarLogic.Css

/-- A name is a function in front of a parenthesis, and `url` a url there. -/
def identLike (cs : List Char) : Token × List Char :=
  match (name cs).2 with
  | '(' :: rest =>
    if (name cs).1.map Char.toLower = ['u', 'r', 'l'] then
      (url? rest).getD (.function (name cs).1, rest)
    else (.function (name cs).1, rest)
  | rest => (.ident (name cs).1, rest)

theorem identLike_suffix_of_name {cs rest : List Char} (h : (name cs).2 <:+ rest) :
    (identLike cs).2 <:+ rest := by
  unfold identLike
  split
  · rename_i tail hn
    rw [hn] at h
    have ht : tail <:+ rest := (List.suffix_cons _ _).trans h
    split
    · cases hu : url? tail with
      | none => exact ht
      | some r => exact (url?_suffix hu).trans ht
    · exact ht
  · exact h

/-- Two characters that make one token where the second is an equals sign. -/
def match? (c : Char) (token : Token) : List Char → Token × List Char
  | '=' :: cs => (token, cs)
  | cs => (.delim c, cs)

/-- The token that starts with a character, and what follows it. -/
def token (c : Char) (cs : List Char) : Token × List Char :=
  if isSpace c then (.whitespace (c :: cs.takeWhile isSpace), cs.dropWhile isSpace)
  else if isNameStart c then identLike (c :: cs)
  else if c.isDigit then numeric [] (c :: cs)
  else match c with
  | '"' => string '"' cs
  | '\'' => string '\'' cs
  | '#' =>
    if startsName cs then (.idHash (name cs).1, (name cs).2)
    else match cs with
      | d :: _ =>
        if d.isDigit || d == '-' then (.hash (name cs).1, (name cs).2) else (.delim '#', cs)
      | [] => (.delim '#', cs)
  | '@' => if startsName cs then (.atKeyword (name cs).1, (name cs).2) else (.delim '@', cs)
  | '\\' => if startsLine cs then (.delim '\\', cs) else identLike ('\\' :: cs)
  | '+' => if startsDigits cs then numeric ['+'] cs else (.delim '+', cs)
  | '.' => if cs.head?.any Char.isDigit then numeric [] ('.' :: cs) else (.delim '.', cs)
  | '-' =>
    if startsDigits cs then numeric ['-'] cs
    else match cs with
      | '-' :: '>' :: rest => (.cdc, rest)
      | cs => if startsName ('-' :: cs) then identLike ('-' :: cs) else (.delim '-', cs)
  | '/' => match cs with
    | '*' :: rest => (.comment (comment rest).1, (comment rest).2)
    | cs => (.delim '/', cs)
  | '<' => match cs with
    | '!' :: '-' :: '-' :: rest => (.cdo, rest)
    | cs => (.delim '<', cs)
  | '$' => match? '$' .suffixMatch cs
  | '*' => match? '*' .substringMatch cs
  | '^' => match? '^' .prefixMatch cs
  | '|' => match? '|' .dashMatch cs
  | '~' => match? '~' .includeMatch cs
  | ':' => (.colon, cs)
  | ';' => (.semicolon, cs)
  | ',' => (.comma, cs)
  | '(' => (.openParen, cs)
  | ')' => (.closeParen, cs)
  | '[' => (.openSquare, cs)
  | ']' => (.closeSquare, cs)
  | '{' => (.openCurly, cs)
  | '}' => (.closeCurly, cs)
  | c => (.delim c, cs)

theorem match?_suffix (c : Char) (t : Token) (cs : List Char) : (match? c t cs).2 <:+ cs := by
  unfold match?
  split
  · exact List.suffix_cons _ _
  · exact List.suffix_refl _

theorem token_suffix (c : Char) (cs : List Char) : (token c cs).2 <:+ cs := by
  unfold token
  split
  · exact List.dropWhile_suffix _
  split
  · rename_i h
    exact identLike_suffix_of_name (name_cons_suffix (.inl (by simp [isNameChar, h])))
  split
  · rename_i h
    refine numeric_suffix_of_fraction ?_
    rw [List.dropWhile_cons_of_pos h]
    exact (fraction_suffix _).trans (List.dropWhile_suffix _)
  split
  case h_1 => exact string_suffix _ _
  case h_2 => exact string_suffix _ _
  case h_3 =>
    split
    · exact name_suffix cs
    · split
      · split
        · exact name_suffix _
        · exact List.suffix_refl _
      · exact List.suffix_refl _
  case h_4 =>
    split
    · exact name_suffix cs
    · exact List.suffix_refl _
  case h_5 =>
    split
    · exact List.suffix_refl _
    · rename_i h
      exact identLike_suffix_of_name (name_cons_suffix (.inr ⟨rfl, by simpa using h⟩))
  case h_6 =>
    split
    · exact numeric_suffix _ _
    · exact List.suffix_refl _
  case h_7 =>
    split
    · rename_i h
      refine numeric_suffix_of_fraction ?_
      cases cs with
      | nil => simp at h
      | cons d cs =>
        have hd : d.isDigit = true := by simpa using h
        rw [List.dropWhile_cons_of_neg (by decide)]
        simp only [fraction, hd, ↓reduceIte]
        exact (List.dropWhile_suffix _).trans (List.suffix_cons _ _)
    · exact List.suffix_refl _
  case h_8 =>
    split
    · exact numeric_suffix _ _
    · split
      · exact (List.suffix_cons _ _).trans (List.suffix_cons _ _)
      · split
        · exact identLike_suffix_of_name (name_cons_suffix (.inl (by decide)))
        · exact List.suffix_refl _
  case h_9 =>
    split
    · exact (comment_suffix _).trans (List.suffix_cons _ _)
    · exact List.suffix_refl _
  case h_10 =>
    split
    · exact (List.suffix_cons _ _).trans ((List.suffix_cons _ _).trans (List.suffix_cons _ _))
    · exact List.suffix_refl _
  all_goals first | exact match?_suffix _ _ _ | exact List.suffix_refl _

/-- The lexemes of a text. -/
def lexemes : List Char → List Lexeme
  | [] => []
  | c :: cs =>
    let rest := (token c cs).2
    ⟨(token c cs).1, c :: cs.take (cs.length - rest.length)⟩ :: lexemes rest
termination_by cs => cs.length
decreasing_by
  have := (token_suffix c cs).length_le
  simp only [List.length_cons]; omega

/-- A text is the concatenation of its lexemes. -/
theorem flatten_lexemes (cs : List Char) : ((lexemes cs).map Lexeme.text).flatten = cs := by
  fun_induction lexemes cs with
  | case1 => rfl
  | case2 c cs rest ih =>
    obtain ⟨front, h⟩ := token_suffix c cs
    simp only [List.map_cons, List.flatten_cons, ih, List.cons_append, List.cons.injEq, true_and]
    have hr : rest = (token c cs).2 := rfl
    rw [← hr] at h
    have hf : cs.length - rest.length = front.length := by
      rw [← h, List.length_append]; omega
    rw [hf, ← h, List.take_left]

end VarLogic.Css
