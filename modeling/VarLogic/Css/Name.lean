/-
Escapes and names. Each reader takes the characters left and returns what it
read and the characters left after it, a suffix of the ones before.
-/
import VarLogic.Css.Token

namespace VarLogic.Css

/-- Up to `n` hexadecimal digits: their value, and what follows. -/
def hexRun : Nat → Nat → List Char → Nat × List Char
  | 0, acc, cs => (acc, cs)
  | _ + 1, acc, [] => (acc, [])
  | n + 1, acc, c :: cs => match hexValue? c with
    | some d => hexRun n (acc * 16 + d) cs
    | none => (acc, c :: cs)

/-- One blank ends a hexadecimal escape; a carriage return and line feed are
one blank. -/
def dropBlank : List Char → List Char
  | '\r' :: '\n' :: cs => cs
  | c :: cs => if isSpace c then cs else c :: cs
  | [] => []

/-- The character of a code point; 0, surrogates and numbers above U+10FFFF
have none. -/
def charOfCode (n : Nat) : Char :=
  if n = 0 then replacement
  else if h : n.isValidChar then Char.ofNatAux n h
  else replacement

/-- What follows a backslash. -/
def escape : List Char → Char × List Char
  | [] => (replacement, [])
  | c :: cs =>
    match hexValue? c with
    | some d =>
      let (n, rest) := hexRun 5 d cs
      (charOfCode n, dropBlank rest)
    | none => if c = '\x00' then (replacement, cs) else (c, cs)

theorem hexRun_suffix (n acc : Nat) (cs : List Char) : (hexRun n acc cs).2 <:+ cs := by
  induction n generalizing acc cs with
  | zero => simp [hexRun]
  | succ n ih =>
    cases cs with
    | nil => simp [hexRun]
    | cons c cs =>
      simp only [hexRun]
      split
      · exact (ih _ cs).trans (List.suffix_cons c cs)
      · exact List.suffix_refl _

theorem dropBlank_suffix (cs : List Char) : dropBlank cs <:+ cs := by
  unfold dropBlank
  split
  · exact (List.suffix_cons _ _).trans (List.suffix_cons _ _)
  · split
    · exact List.suffix_cons _ _
    · exact List.suffix_refl _
  · exact List.suffix_refl _

theorem escape_suffix (cs : List Char) : (escape cs).2 <:+ cs := by
  unfold escape
  split
  · exact List.suffix_refl _
  · rename_i c cs
    split
    · rename_i d _
      exact (dropBlank_suffix _).trans ((hexRun_suffix 5 d cs).trans (List.suffix_cons c cs))
    · split <;> exact List.suffix_cons c cs

/-- The characters of a name, and what follows it. -/
def name : List Char → List Char × List Char
  | [] => ([], [])
  | c :: cs =>
    if c = '\\' then
      if startsLine cs then ([], c :: cs)
      else
        let more := name (escape cs).2
        ((escape cs).1 :: more.1, more.2)
    else if isNameChar c then
      let more := name cs
      ((if c = '\x00' then replacement else c) :: more.1, more.2)
    else ([], c :: cs)
termination_by cs => cs.length
decreasing_by
  · have := (escape_suffix cs).length_le
    simp only [List.length_cons]; omega
  · simp

theorem name_suffix (cs : List Char) : (name cs).2 <:+ cs := by
  fun_induction name cs with
  | case1 => exact List.suffix_refl _
  | case2 => exact List.suffix_refl _
  | case3 cs _ _ ih =>
    exact ih.trans ((escape_suffix cs).trans (List.suffix_cons _ _))
  | case4 c cs _ _ more ih => exact ih.trans (List.suffix_cons _ _)
  | case5 => exact List.suffix_refl _

/-- The first character of a text that starts a name is read. -/
theorem name_cons_suffix {c : Char} {cs : List Char}
    (h : isNameChar c = true ∨ (c = '\\' ∧ startsLine cs = false)) :
    (name (c :: cs)).2 <:+ cs := by
  rw [name]
  split
  · rename_i hc
    subst hc
    split
    · rename_i hl
      rcases h with h | h
      · exact absurd h (by decide)
      · simp [hl] at h
    · exact (name_suffix _).trans (escape_suffix cs)
  · rename_i hc
    have hn : isNameChar c = true := h.resolve_right (fun h => hc h.1)
    simp only [hn, ↓reduceIte]
    exact name_suffix cs

end VarLogic.Css
