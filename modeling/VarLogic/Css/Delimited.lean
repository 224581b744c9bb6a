/-
Tokens that run up to their end mark: comments, strings and urls. What is open
at the end of the text is closed there, and what cannot be a string or a url
becomes a bad token.
-/
import VarLogic.Css.Name

namespace VarLogic.Css

/-! ## Comments -/

/-- The rest of a comment: its text, and what follows its end. -/
def comment : List Char → List Char × List Char
  | [] => ([], [])
  | '*' :: '/' :: cs => ([], cs)
  | c :: cs => (c :: (comment cs).1, (comment cs).2)

theorem comment_suffix (cs : List Char) : (comment cs).2 <:+ cs := by
  fun_induction comment cs with
  | case1 => exact List.suffix_refl _
  | case2 cs => exact (List.suffix_cons _ _).trans (List.suffix_cons _ _)
  | case3 c cs _ ih => exact ih.trans (List.suffix_cons _ _)

/-! ## Strings -/

/-- Leaves out one newline; a carriage return and line feed are one. -/
def dropLine : List Char → List Char
  | '\r' :: '\n' :: cs => cs
  | _ :: cs => cs
  | [] => []

theorem dropLine_suffix (cs : List Char) : dropLine cs <:+ cs := by
  unfold dropLine
  split
  · exact (List.suffix_cons _ _).trans (List.suffix_cons _ _)
  · exact List.suffix_cons _ _
  · exact List.suffix_refl _

/-- The rest of a string: its token, and what follows. A newline ends it as a
bad string and stays; an escaped newline counts for nothing. -/
def string (quote : Char) : List Char → Token × List Char
  | [] => (.string [], [])
  | c :: cs =>
    if c = quote then (.string [], cs)
    else if isNewline c then (.badString, c :: cs)
    else if c = '\\' then
      if cs = [] then (.string [], [])
      else if startsLine cs then string quote (dropLine cs)
      else
        let more := string quote (escape cs).2
        (prepend (escape cs).1 more.1, more.2)
    else
      let more := string quote cs
      (prepend (if c = '\x00' then replacement else c) more.1, more.2)
termination_by cs => cs.length
decreasing_by
  · have := (dropLine_suffix cs).length_le
    simp only [List.length_cons]; omega
  · have := (escape_suffix cs).length_le
    simp only [List.length_cons]; omega
  · simp
where
  /-- A character in front of a string's value. -/
  prepend (c : Char) : Token → Token
    | .string value => .string (c :: value)
    | token => token

theorem string_suffix (quote : Char) (cs : List Char) : (string quote cs).2 <:+ cs := by
  fun_induction string quote cs with
  | case1 => exact List.suffix_refl _
  | case2 => exact List.suffix_cons _ _
  | case3 => exact List.suffix_refl _
  | case4 => exact List.nil_suffix
  | case5 cs _ _ _ _ ih =>
    exact ih.trans ((dropLine_suffix cs).trans (List.suffix_cons _ _))
  | case6 cs _ _ _ _ _ ih =>
    exact ih.trans ((escape_suffix cs).trans (List.suffix_cons _ _))
  | case7 c cs _ _ _ more ih => exact ih.trans (List.suffix_cons _ _)

/-! ## Urls -/

/-- What follows a bad url. -/
def afterBadUrl : List Char → List Char
  | [] => []
  | ')' :: cs => cs
  | '\\' :: ')' :: cs => afterBadUrl cs
  | '\\' :: '\\' :: cs => afterBadUrl cs
  | _ :: cs => afterBadUrl cs

theorem afterBadUrl_suffix (cs : List Char) : afterBadUrl cs <:+ cs := by
  fun_induction afterBadUrl cs with
  | case1 => exact List.suffix_refl _
  | case2 => exact List.suffix_cons _ _
  | case3 cs ih => exact ih.trans ((List.suffix_cons _ _).trans (List.suffix_cons _ _))
  | case4 cs ih => exact ih.trans ((List.suffix_cons _ _).trans (List.suffix_cons _ _))
  | case5 c cs _ _ _ ih => exact ih.trans (List.suffix_cons _ _)

/-- After blanks in an unquoted url only its end may follow. -/
def urlEnd (value : List Char) : List Char → Token × List Char
  | [] => (.url value, [])
  | c :: cs =>
    if c = ')' then (.url value, cs)
    else if isSpace c then urlEnd value cs
    else (.badUrl, afterBadUrl cs)

theorem urlEnd_suffix (value cs : List Char) : (urlEnd value cs).2 <:+ cs := by
  induction cs with
  | nil => exact List.suffix_refl _
  | cons c cs ih =>
    simp only [urlEnd]
    split
    · exact List.suffix_cons _ _
    · split
      · exact ih.trans (List.suffix_cons _ _)
      · exact (afterBadUrl_suffix cs).trans (List.suffix_cons _ _)

/-- The rest of an unquoted url after the characters `value`, which stand in
reverse. -/
def urlBody (value : List Char) : List Char → Token × List Char
  | [] => (.url value.reverse, [])
  | c :: cs =>
    if isSpace c then urlEnd value.reverse (c :: cs)
    else if c = ')' then (.url value.reverse, cs)
    else if isUnprintable c || c = '"' || c = '\'' || c = '(' then (.badUrl, afterBadUrl cs)
    else if c = '\\' then
      if startsLine cs then (.badUrl, afterBadUrl cs)
      else urlBody ((escape cs).1 :: value) (escape cs).2
    else urlBody ((if c = '\x00' then replacement else c) :: value) cs
termination_by cs => cs.length
decreasing_by
  · have := (escape_suffix cs).length_le
    simp only [List.length_cons]; omega
  · simp

theorem urlBody_suffix (value cs : List Char) : (urlBody value cs).2 <:+ cs := by
  fun_induction urlBody value cs with
  | case1 => exact List.suffix_refl _
  | case2 => exact urlEnd_suffix _ _
  | case3 => exact List.suffix_cons _ _
  | case4 value c cs => exact (afterBadUrl_suffix cs).trans (List.suffix_cons _ _)
  | case5 value cs => exact (afterBadUrl_suffix cs).trans (List.suffix_cons _ _)
  | case6 value cs _ _ _ _ ih =>
    exact ih.trans ((escape_suffix cs).trans (List.suffix_cons _ _))
  | case7 value c cs _ _ _ _ ih => exact ih.trans (List.suffix_cons _ _)

/-- What follows `url(`: none if it is a quoted string, which makes `url` a
function. -/
def url? (cs : List Char) : Option (Token × List Char) :=
  match cs.dropWhile isSpace with
  | '"' :: _ => none
  | '\'' :: _ => none
  | body => some (urlBody [] body)

theorem url?_suffix {cs rest : List Char} {t : Token} (h : url? cs = some (t, rest)) :
    rest <:+ cs := by
  unfold url? at h
  split at h
  · cases h
  · cases h
  · rename_i body _ _
    have hb : (urlBody [] (cs.dropWhile isSpace)).2 <:+ cs :=
      (urlBody_suffix [] _).trans (List.dropWhile_suffix isSpace)
    simp only [Option.some.injEq] at h
    rw [h] at hb
    exact hb

end VarLogic.Css
