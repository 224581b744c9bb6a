/-
Tokens in front of a bracket. A token leaves the bracket alone, or takes it,
whatever follows (`token_decided`). Of the tokens that have no end mark only one
whose last character is a backslash takes it.
-/
import VarLogic.Css.Lexer
import VarLogic.Proofs.Css.Delimited
import VarLogic.Proofs.Css.Url
import VarLogic.Proofs.Css.Numeric

namespace VarLogic.Css

variable {P : Prop}

/-! ## Names in front of parentheses -/

theorem identLike_of_paren {cs rest : List Char} (h : (name cs).2 = '(' :: rest) :
    identLike cs = if (name cs).1.map Char.toLower = ['u', 'r', 'l'] then
      (url? rest).getD (.function (name cs).1, rest) else (.function (name cs).1, rest) := by
  unfold identLike
  rw [h]
  rfl

theorem identLike_of_ne {cs : List Char} (h : ∀ ds, (name cs).2 ≠ '(' :: ds) :
    identLike cs = (.ident (name cs).1, (name cs).2) := by
  unfold identLike
  split
  · rename_i rest hr
    exact absurd hr (h rest)
  · rfl

/-- What stands in front of the text of a url is nothing that could end it. -/
theorem url_inside {cs ds : List Char} (h : (name cs).2 = '(' :: ds) :
    ∃ front, Inside ')' front ∧ cs = front ++ ds.dropWhile isSpace := by
  obtain ⟨front, hfront, he⟩ := name_inside isMark_paren (by decide) (by rw [h]; simp)
  have hspace : ∀ c ∈ ds.takeWhile isSpace, c ≠ '\\' ∧ c ≠ ')' := fun c hc =>
    isMark_paren.ne (.inr (List.all_eq_true.1 List.all_takeWhile c hc))
  have hinside : Inside ')' ('(' :: ds.takeWhile isSpace) := by
    refine .plain (by decide) (by decide) ?_
    simpa using (inside_append hspace []).2 .nil
  refine ⟨front ++ '(' :: ds.takeWhile isSpace, (hfront.append_iff _).2 hinside, ?_⟩
  rw [List.append_assoc, List.cons_append, List.takeWhile_append_dropWhile, ← h, ← he]

theorem identLike_decided {cs : List Char} (hb : ['\\'] <:+ cs → P)
    (hu : Lexeme.IsCut ⟨(identLike cs).1, cs⟩ → P) : Decided P identLike cs := by
  rcases name_decided hb with h | ⟨h, hP⟩
  · by_cases hp : ∃ ds, (name cs).2 = '(' :: ds
    · obtain ⟨ds, hds⟩ := hp
      have hname : ∀ y, Bracketed y → name (cs ++ y) = ((name cs).1, '(' :: (ds ++ y)) := fun y hy => by
        rw [h y hy, hds, List.cons_append]
      have hread : ∀ y, Bracketed y → identLike (cs ++ y) =
          if (name cs).1.map Char.toLower = ['u', 'r', 'l'] then
            (url? (ds ++ y)).getD (.function (name cs).1, ds ++ y)
          else (.function (name cs).1, ds ++ y) := fun y hy => by
        rw [identLike_of_paren (by rw [hname y hy]), hname y hy]
      by_cases hn : (name cs).1.map Char.toLower = ['u', 'r', 'l']
      · rcases url?_cases ds with hq | hq
        · refine .stop (.function (name cs).1) ds fun y hy => ?_
          rw [hread y hy, if_pos hn, hq y hy, Option.getD_none]
        · have hbody : ∀ y, Bracketed y → identLike (cs ++ y) =
              urlBody [] (ds.dropWhile isSpace ++ y) := fun y hy => by
            rw [hread y hy, if_pos hn, hq y hy, Option.getD_some]
          have hnil := hbody [] (.inl rfl)
          rw [List.append_nil, List.append_nil] at hnil
          obtain ⟨front, hfront, he⟩ := url_inside hds
          refine (urlBody_decided fun h => hu ?_).step id hbody
          rw [hnil]
          rcases urlBody_token [] (ds.dropWhile isSpace) with ⟨v, ht⟩ | ht
          · have hcut := h.resolve_left (by rw [ht]; simp)
            rw [ht, he]
            exact hcut.append hfront
          · rw [ht]
            trivial
      · exact .stop (.function (name cs).1) ds fun y hy => by rw [hread y hy, if_neg hn]
    · refine .stop (.ident (name cs).1) (name cs).2 fun y hy => ?_
      have hne : ∀ ds, (name (cs ++ y)).2 ≠ '(' :: ds := fun ds hds => by
        rw [h y hy] at hds
        obtain ⟨es, hes⟩ := hy.cons_of_append (by decide) hds
        exact hp ⟨es, hes⟩
      rw [identLike_of_ne hne, h y hy]
  · refine .inr ⟨⟨?_, fun d z hd => ?_⟩, hP⟩
    · have hall : (name cs).2 <:+ [] := List.suffix_nil.2 h.all
      exact List.suffix_nil.1 (identLike_suffix_of_name hall)
    · exact identLike_suffix_of_name (h.more d z hd)

/-! ## Tokens -/

theorem match?_decided (c : Char) (t : Token) (cs : List Char) : Decided P (match? c t) cs := by
  by_cases h : ∃ ds, cs = '=' :: ds
  · obtain ⟨ds, rfl⟩ := h
    exact .stop t ds fun y _ => rfl
  · refine .stop (.delim c) cs fun y hy => ?_
    unfold match?
    split
    · rename_i he
      obtain ⟨es, hes⟩ := hy.cons_of_append (by decide) he
      exact absurd ⟨es, hes⟩ h
    · rfl

/-- The characters that start tokens of their own, names and numbers apart. -/
def signs : List Char :=
  ['"', '\'', '#', '@', '\\', '+', '.', '-', '/', '<', '$', '*', '^', '|', '~', ':', ';', ',',
    '(', ')', '[', ']', '{', '}']

theorem token_space {c : Char} (hs : isSpace c = true) (cs : List Char) :
    token c cs = (.whitespace (c :: cs.takeWhile isSpace), cs.dropWhile isSpace) := by
  unfold token
  rw [if_pos hs]

theorem token_name {c : Char} (hs : isSpace c = false) (hn : isNameStart c = true)
    (cs : List Char) : token c cs = identLike (c :: cs) := by
  unfold token
  rw [if_neg (by simp [hs]), if_pos hn]

theorem token_digit {c : Char} (hs : isSpace c = false) (hn : isNameStart c = false)
    (hd : c.isDigit = true) (cs : List Char) : token c cs = numeric [] (c :: cs) := by
  unfold token
  rw [if_neg (by simp [hs]), if_neg (by simp [hn]), if_pos hd]

theorem token_delim {c : Char} (hs : isSpace c = false) (hn : isNameStart c = false)
    (hd : c.isDigit = false) (hc : c ∉ signs) (cs : List Char) : token c cs = (.delim c, cs) := by
  unfold token
  rw [hs, hn, hd]
  simp only [Bool.false_eq_true, if_false]
  split <;> first | rfl | exact absurd (by decide) hc

/-! What the signs start that are more than one character long. -/

theorem token_hash (cs : List Char) : token '#' cs =
    if startsName cs then (.idHash (name cs).1, (name cs).2)
    else if cs.head?.any fun d => d.isDigit || d == '-' then (.hash (name cs).1, (name cs).2)
    else (.delim '#', cs) := by
  cases cs <;> rfl

theorem token_at (cs : List Char) : token '@' cs =
    if startsName cs then (.atKeyword (name cs).1, (name cs).2) else (.delim '@', cs) := rfl

theorem token_backslash (cs : List Char) : token '\\' cs =
    if startsLine cs then (.delim '\\', cs) else identLike ('\\' :: cs) := rfl

theorem token_plus (cs : List Char) : token '+' cs =
    if startsDigits cs then numeric ['+'] cs else (.delim '+', cs) := rfl

theorem token_point (cs : List Char) : token '.' cs =
    if cs.head?.any Char.isDigit then numeric [] ('.' :: cs) else (.delim '.', cs) := rfl

theorem token_minus {cs : List Char} (h : ∀ ds, cs ≠ ['-', '>'] ++ ds) : token '-' cs =
    if startsDigits cs then numeric ['-'] cs
    else if startsName ('-' :: cs) then identLike ('-' :: cs) else (.delim '-', cs) := by
  change (if startsDigits cs then _ else _) = _
  split
  · rfl
  · split
    · rename_i ds _
      exact absurd rfl (h ds)
    · rfl

theorem token_slash {cs : List Char} (h : ∀ ds, cs ≠ '*' :: ds) :
    token '/' cs = (.delim '/', cs) := by
  rw [token, if_neg (by decide), if_neg (by decide), if_neg (by decide)]
  exact h

theorem token_less {cs : List Char} (h : ∀ ds, cs ≠ ['!', '-', '-'] ++ ds) :
    token '<' cs = (.delim '<', cs) := by
  rw [token, if_neg (by decide), if_neg (by decide), if_neg (by decide)]
  exact h

theorem hash_decided {cs : List Char} (hP : ['\\'] <:+ cs → P) : Decided P (token '#') cs := by
  cases hn : startsName cs with
  | true =>
    refine (name_decided hP).step .idHash fun y hy => ?_
    rw [token_hash, startsName_append cs hy, hn, if_pos rfl]
  | false =>
    have hread : ∀ y, Bracketed y → token '#' (cs ++ y) =
        if cs.head?.any fun d => d.isDigit || d == '-' then
          (.hash (name (cs ++ y)).1, (name (cs ++ y)).2) else (.delim '#', cs ++ y) := fun y hy => by
      rw [token_hash, startsName_append cs hy, hn, if_neg Bool.false_ne_true]
      cases cs with
      | nil =>
        rcases hy with rfl | ⟨d, z, rfl, hd⟩
        · rfl
        · have hm : (d == '-') = false := by simpa using ne_of_isBracket hd (by decide)
          simp [not_isDigit hd, hm]
      | cons d ds => rfl
    cases hh : cs.head?.any fun d => d.isDigit || d == '-' with
    | true =>
      refine (name_decided hP).step .hash fun y hy => ?_
      rw [hread y hy, hh, if_pos rfl]
    | false =>
      refine .stop (.delim '#') cs fun y hy => ?_
      rw [hread y hy, hh, if_neg Bool.false_ne_true]

theorem minus_decided {cs : List Char} (hb : ['\\'] <:+ '-' :: cs → P)
    (hu : Lexeme.IsCut ⟨(token '-' cs).1, '-' :: cs⟩ → P) : Decided P (token '-') cs := by
  by_cases h : ∃ ds, cs = ['-', '>'] ++ ds
  · obtain ⟨ds, rfl⟩ := h
    exact .stop .cdc ds fun y _ => rfl
  have hread : ∀ y, Bracketed y → token '-' (cs ++ y) =
      if startsDigits cs then numeric ['-'] (cs ++ y)
      else if startsName ('-' :: cs) then identLike ('-' :: cs ++ y)
        else (.delim '-', cs ++ y) := fun y hy => by
    have hne : ∀ ds, cs ++ y ≠ ['-', '>'] ++ ds := fun ds he =>
      h (hy.of_append_eq_append rfl he)
    rw [token_minus hne, startsDigits_append cs hy, ← List.cons_append, startsName_append _ hy]
  cases hd : startsDigits cs with
  | true =>
    refine (numeric_decided ['-'] fun h => hb (h.trans (List.suffix_cons _ _))).step id
      fun y hy => ?_
    rw [hread y hy, hd, if_pos rfl]
    rfl
  | false =>
    cases hn : startsName ('-' :: cs) with
    | true =>
      have hident : ∀ y, Bracketed y → token '-' (cs ++ y) = identLike ('-' :: cs ++ y) :=
        fun y hy => by rw [hread y hy, hd, if_neg Bool.false_ne_true, hn, if_pos rfl]
      have hnil := hident [] (.inl rfl)
      rw [List.append_nil, List.append_nil] at hnil
      exact (identLike_decided hb (by rwa [← hnil])).step id hident
    | false =>
      refine .stop (.delim '-') cs fun y hy => ?_
      rw [hread y hy, hd, if_neg Bool.false_ne_true, hn, if_neg Bool.false_ne_true]

theorem slash_decided {cs : List Char} (hu : Lexeme.IsCut ⟨(token '/' cs).1, '/' :: cs⟩ → P) :
    Decided P (token '/') cs := by
  by_cases h : ∃ ds, cs = '*' :: ds
  · obtain ⟨ds, rfl⟩ := h
    exact (comment_decided fun h => hu ⟨ds, rfl, h⟩).step .comment fun y _ => rfl
  · refine .stop (.delim '/') cs fun y hy => token_slash fun ds he => ?_
    obtain ⟨es, hes⟩ := hy.cons_of_append (by decide) he
    exact h ⟨es, hes⟩

theorem less_decided (cs : List Char) : Decided P (token '<') cs := by
  by_cases h : ∃ ds, cs = ['!', '-', '-'] ++ ds
  · obtain ⟨ds, rfl⟩ := h
    exact .stop .cdo ds fun y _ => rfl
  · exact .stop (.delim '<') cs fun y hy => token_less fun ds he =>
      h (hy.of_append_eq_append rfl he)

/-- Where a test on what follows decides between two readers. -/
theorem decided_of_if {c : Char} {cs : List Char} {test : List Char → Bool}
    {yes no : List Char → Token × List Char}
    (ht : ∀ y, Bracketed y → test (cs ++ y) = test cs)
    (hyes : token c cs = yes cs → Decided P yes cs) (hno : token c cs = no cs → Decided P no cs)
    (hr : ∀ ds, token c ds = if test ds then yes ds else no ds) : Decided P (token c) cs := by
  cases htest : test cs with
  | true =>
    refine (hyes (by rw [hr, htest, if_pos rfl])).step id fun y hy => ?_
    rw [hr, ht y hy, htest, if_pos rfl]
    rfl
  | false =>
    refine (hno (by rw [hr, htest, if_neg Bool.false_ne_true])).step id fun y hy => ?_
    rw [hr, ht y hy, htest, if_neg Bool.false_ne_true]
    rfl

theorem delim_decided (t : Token) (cs : List Char) : Decided P (fun ds => (t, ds)) cs :=
  .stop t cs fun _ _ => rfl

theorem quote_decided {quote : Char} (hq : isQuote quote = true) {cs : List Char}
    (hu : Lexeme.IsCut ⟨(string quote cs).1, quote :: cs⟩ → P) : Decided P (string quote) cs := by
  refine string_decided hq fun h => hu ?_
  rcases string_token quote cs with ⟨v, ht⟩ | ht
  · rw [ht]
    exact ⟨quote, cs, hq, rfl, h⟩
  · rw [ht]
    trivial

/-- **A token leaves a bracket behind it alone, or takes it**, whatever follows
the bracket. It takes it behind a backslash, or where its end mark is missing. -/
theorem token_decided (c : Char) (cs : List Char) :
    Decided (['\\'] <:+ c :: cs ∨ Lexeme.IsCut ⟨(token c cs).1, c :: cs⟩) (token c) cs := by
  -- A backslash at the end of what follows is one at the end of it all.
  have hb : ['\\'] <:+ cs → ['\\'] <:+ c :: cs ∨ Lexeme.IsCut ⟨(token c cs).1, c :: cs⟩ := fun h =>
    .inl (h.trans (List.suffix_cons _ _))
  cases hs : isSpace c with
  | true =>
    refine .stop (.whitespace (c :: cs.takeWhile isSpace)) (cs.dropWhile isSpace) fun y hy => ?_
    rw [token_space hs, takeWhile_append (fun _ h => (of_isBracket h).1) cs hy,
      dropWhile_append (fun _ h => (of_isBracket h).1) cs hy]
  | false =>
  cases hn : isNameStart c with
  | true =>
    have hread := token_name hs hn
    exact (identLike_decided .inl fun h => .inr (by rwa [hread])).step id fun y _ => hread (cs ++ y)
  | false =>
  cases hd : c.isDigit with
  | true => exact (numeric_decided [] .inl).step id fun y _ => token_digit hs hn hd (cs ++ y)
  | false =>
  by_cases hc : c ∈ signs
  · simp only [signs, List.mem_cons, List.not_mem_nil, or_false] at hc
    rcases hc with rfl | rfl | rfl | rfl | rfl | rfl | rfl | rfl | rfl | rfl | rfl | rfl | rfl | rfl |
      rfl | rfl | rfl | rfl | rfl | rfl | rfl | rfl | rfl | rfl
    · exact (quote_decided (by decide) .inr).step id fun y _ => rfl
    · exact (quote_decided (by decide) .inr).step id fun y _ => rfl
    · exact hash_decided hb
    · exact decided_of_if (fun y => startsName_append cs)
        (fun _ => (name_decided hb).step .atKeyword fun y _ => rfl)
        (fun _ => delim_decided (.delim '@') cs) token_at
    · exact decided_of_if (fun y => startsLine_append cs) (fun _ => delim_decided (.delim '\\') cs)
        (fun he => (identLike_decided .inl fun h => .inr (he ▸ h)).step id fun y _ => rfl)
        token_backslash
    · exact decided_of_if (fun y => startsDigits_append cs) (fun _ => numeric_decided ['+'] hb)
        (fun _ => delim_decided (.delim '+') cs) token_plus
    · exact decided_of_if (fun y => head?_append cs)
        (fun _ => (numeric_decided [] .inl).step id fun y _ => rfl)
        (fun _ => delim_decided (.delim '.') cs) token_point
    · exact minus_decided .inl .inr
    · exact slash_decided .inr
    · exact less_decided cs
    · exact match?_decided '$' .suffixMatch cs
    · exact match?_decided '*' .substringMatch cs
    · exact match?_decided '^' .prefixMatch cs
    · exact match?_decided '|' .dashMatch cs
    · exact match?_decided '~' .includeMatch cs
    · exact delim_decided .colon cs
    · exact delim_decided .semicolon cs
    · exact delim_decided .comma cs
    · exact delim_decided .openParen cs
    · exact delim_decided .closeParen cs
    · exact delim_decided .openSquare cs
    · exact delim_decided .closeSquare cs
    · exact delim_decided .openCurly cs
    · exact delim_decided .closeCurly cs
  · exact .stop (.delim c) cs fun y _ => token_delim hs hn hd hc (cs ++ y)

end VarLogic.Css
