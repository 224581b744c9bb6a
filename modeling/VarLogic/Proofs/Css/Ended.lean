/-
Which tokens have an end mark, and whether it is there. A comment, a string or
a url reaches its end mark, or it is read up to the end of the text
(`ended_or_cut`); only the last lexeme of a text can be cut (`ended_or_last`).
-/
import VarLogic.Proofs.Css.Lexer

namespace VarLogic.Css

/-- A character that can start nothing with an end of its own. -/
def isPlain (c : Char) : Bool :=
  !(['(', ')', '[', ']', '{', '}', '"', '\'', '/', '\\', '@'].contains c)

/-- A token with no end of its own. -/
def Token.isPlain : Token → Bool
  | .function _ | .atKeyword _ | .string _ | .badString | .url _ | .badUrl | .comment _
  | .openParen | .openSquare | .openCurly | .closeParen | .closeSquare | .closeCurly => false
  | _ => true

/-- Comments, strings and urls, and what fails to be one. -/
def Token.isDelimited : Token → Bool
  | .comment _ | .string _ | .badString | .url _ | .badUrl => true
  | _ => false

theorem isDelimited_of_isPlain {t : Token} (h : t.isPlain = true) : t.isDelimited = false := by
  cases t <;> first | rfl | cases h

/-- How a token starts. Only a comment, a string and a url have an end mark. -/
inductive TokenStart (c : Char) (cs : List Char) : Prop
  | plain (h : (token c cs).1.isPlain = true)
  | sign (hc : isPlain c = false) (h : (token c cs).1.isDelimited = false)
  | comment (ds : List Char) (hc : c = '/') (hcs : cs = '*' :: ds)
  | quote (h : isQuote c = true)
  | ident (h : ∀ y, Bracketed y → token c (cs ++ y) = identLike (c :: (cs ++ y)))

theorem numeric_plain (sign cs : List Char) : (numeric sign cs).1.isPlain = true := by
  rw [numeric_eq]
  unfold afterDigits
  split
  · rfl
  · split <;> rfl

theorem match?_plain (c : Char) {t : Token} (ht : t.isPlain = true) (cs : List Char) :
    (match? c t cs).1.isPlain = true := by
  unfold match?
  split
  · exact ht
  · rfl

theorem minus_starts (cs : List Char) : TokenStart '-' cs := by
  by_cases h : ∃ ds, cs = ['-', '>'] ++ ds
  · obtain ⟨ds, rfl⟩ := h
    exact .plain rfl
  have hread : ∀ y, Bracketed y → token '-' (cs ++ y) = _ := fun y hy =>
    token_minus fun ds he => h (hy.of_append_eq_append rfl he)
  have hnil := hread [] (.inl rfl)
  rw [List.append_nil] at hnil
  cases hd : startsDigits cs with
  | true => exact .plain (by rw [hnil, hd, if_pos rfl, numeric_plain])
  | false =>
    cases hn : startsName ('-' :: cs) with
    | true =>
      refine .ident fun y hy => ?_
      rw [hread y hy, startsDigits_append cs hy, hd, if_neg Bool.false_ne_true,
        ← List.cons_append, startsName_append _ hy, hn, if_pos rfl]
    | false => exact .plain (by rw [hnil, hd, hn]; rfl)

theorem token_starts (c : Char) (cs : List Char) : TokenStart c cs := by
  cases hs : isSpace c with
  | true => exact .plain (by rw [token_space hs]; rfl)
  | false =>
  cases hn : isNameStart c with
  | true => exact .ident fun y _ => token_name hs hn (cs ++ y)
  | false =>
  cases hd : c.isDigit with
  | true => exact .plain (by rw [token_digit hs hn hd, numeric_plain])
  | false =>
  by_cases hc : c ∈ signs
  · simp only [signs, List.mem_cons, List.not_mem_nil, or_false] at hc
    rcases hc with rfl | rfl | rfl | rfl | rfl | rfl | rfl | rfl | rfl | rfl | rfl | rfl | rfl | rfl |
      rfl | rfl | rfl | rfl | rfl | rfl | rfl | rfl | rfl | rfl
    · exact .quote rfl
    · exact .quote rfl
    · refine .plain ?_
      rw [token_hash]
      split
      · rfl
      · split <;> rfl
    · refine .sign rfl ?_
      rw [token_at]
      split <;> rfl
    · cases hl : startsLine cs with
      | true => exact .plain (by rw [token_backslash, hl]; rfl)
      | false =>
        refine .ident fun y hy => ?_
        rw [token_backslash, startsLine_append cs hy, hl, if_neg Bool.false_ne_true]
    · refine .plain ?_
      rw [token_plus]
      split
      · exact numeric_plain _ _
      · rfl
    · refine .plain ?_
      rw [token_point]
      split
      · exact numeric_plain _ _
      · rfl
    · exact minus_starts cs
    · by_cases h : ∃ ds, cs = '*' :: ds
      · obtain ⟨ds, hds⟩ := h
        exact .comment ds rfl hds
      · exact .plain (by rw [token_slash fun ds he => h ⟨ds, he⟩]; rfl)
    · by_cases h : ∃ ds, cs = ['!', '-', '-'] ++ ds
      · obtain ⟨ds, rfl⟩ := h
        exact .plain rfl
      · exact .plain (by rw [token_less fun ds he => h ⟨ds, he⟩]; rfl)
    · exact .plain (match?_plain '$' rfl cs)
    · exact .plain (match?_plain '*' rfl cs)
    · exact .plain (match?_plain '^' rfl cs)
    · exact .plain (match?_plain '|' rfl cs)
    · exact .plain (match?_plain '~' rfl cs)
    all_goals first | exact .plain rfl | exact .sign rfl rfl
  · exact .plain (by rw [token_delim hs hn hd hc]; rfl)

/-- What follows the parenthesis of a url is read as its text, whatever bracket
comes behind it. -/
theorem identLike_url {cs : List Char} (h : (identLike cs).1.isDelimited = true) :
    ∃ ds, (name cs).2 = '(' :: ds ∧
      ∀ y, Bracketed y → identLike (cs ++ y) = urlBody [] (ds.dropWhile isSpace ++ y) := by
  by_cases hp : ∃ ds, (name cs).2 = '(' :: ds
  · obtain ⟨ds, hds⟩ := hp
    have hsettles : Settles name cs := by
      rcases name_decided (P := True) (fun _ => trivial) with h | ⟨h, -⟩
      · exact h
      · rw [h.all] at hds
        cases hds
    have hread : ∀ y, Bracketed y → identLike (cs ++ y) =
        if (name cs).1.map Char.toLower = ['u', 'r', 'l'] then
          (url? (ds ++ y)).getD (.function (name cs).1, ds ++ y)
        else (.function (name cs).1, ds ++ y) := fun y hy => by
      have hname : name (cs ++ y) = ((name cs).1, '(' :: (ds ++ y)) := by
        rw [hsettles y hy, hds, List.cons_append]
      rw [identLike_of_paren (by rw [hname]), hname]
    have hnil := hread [] (.inl rfl)
    rw [List.append_nil] at hnil
    by_cases hn : (name cs).1.map Char.toLower = ['u', 'r', 'l']
    · rcases url?_cases ds with hq | hq
      · rw [hnil, if_pos hn, hq [] (.inl rfl)] at h
        cases h
      · refine ⟨ds, hds, fun y hy => ?_⟩
        rw [hread y hy, if_pos hn, hq y hy, Option.getD_some]
    · rw [hnil, if_neg hn] at h
      cases h
  · rw [identLike_of_ne fun ds hds => hp ⟨ds, hds⟩] at h
    cases h

theorem isEnded_of_not_isDelimited {l : Lexeme} (h : l.token.isDelimited = false) : l.IsEnded := by
  obtain ⟨t, text⟩ := l
  cases t <;> trivial

theorem isDelimited_of_isCut {l : Lexeme} (h : l.IsCut) : l.token.isDelimited = true := by
  obtain ⟨t, text⟩ := l
  cases t <;> first | rfl | exact h.elim

theorem token_quote {c : Char} (h : isQuote c = true) (cs : List Char) : token c cs = string c cs := by
  have hc : c = '"' ∨ c = '\'' := by simpa [isQuote] using h
  rcases hc with rfl | rfl <;> rfl

/-! ## End marks -/

theorem comment_ended_or_cut {cs read : List Char} (hread : '*' :: cs = read ++ (comment cs).2) :
    Lexeme.IsEnded ⟨.comment (comment cs).1, '/' :: read⟩ ∨
      ((comment cs).2 = [] ∧ Lexeme.IsCut ⟨.comment (comment cs).1, '/' :: read⟩) := by
  rcases comment_reads cs with ⟨body, he⟩ | ⟨hnil, he⟩
  · left
    refine ⟨body, ?_⟩
    have hall : '*' :: body ++ ['*', '/'] ++ (comment cs).2 = read ++ (comment cs).2 := by
      rw [← hread]
      simpa using he.symm
    rw [List.append_cancel_right hall |>.symm]
    rfl
  · right
    rw [hnil, List.append_nil] at hread
    exact ⟨hnil, cs, by rw [hread], he⟩

theorem string_ended_or_cut {c : Char} (hq : isQuote c = true) {cs read : List Char}
    (hread : cs = read ++ (string c cs).2) (hbad : (string c cs).1 ≠ .badString) :
    Lexeme.IsEnded ⟨(string c cs).1, c :: read⟩ ∨
      ((string c cs).2 = [] ∧ Lexeme.IsCut ⟨(string c cs).1, c :: read⟩) := by
  obtain ⟨v, ht⟩ := (string_token c cs).resolve_right hbad
  rw [ht]
  rcases string_reads hq hbad with ⟨body, hbody, he⟩ | ⟨hnil, hcut⟩
  · left
    refine ⟨c, body, ?_, hbody⟩
    have hall : body ++ [c] ++ (string c cs).2 = read ++ (string c cs).2 := by
      rw [← hread]
      simpa using he.symm
    rw [List.append_cancel_right hall |>.symm]
    rfl
  · right
    rw [hnil, List.append_nil] at hread
    exact ⟨hnil, c, cs, hq, by rw [hread], hcut⟩

theorem identLike_ended_or_cut {cs read : List Char} (hread : cs = read ++ (identLike cs).2)
    (hbad : (identLike cs).1 ≠ .badUrl) :
    Lexeme.IsEnded ⟨(identLike cs).1, read⟩ ∨
      ((identLike cs).2 = [] ∧ Lexeme.IsCut ⟨(identLike cs).1, read⟩) := by
  cases hd : (identLike cs).1.isDelimited with
  | false => exact .inl (isEnded_of_not_isDelimited hd)
  | true =>
    obtain ⟨ds, hds, hy⟩ := identLike_url hd
    have hbody := hy [] (.inl rfl)
    rw [List.append_nil, List.append_nil] at hbody
    obtain ⟨front, hfront, he⟩ := url_inside hds
    rw [hbody] at hread hbad ⊢
    obtain ⟨v, ht⟩ := (urlBody_token [] (ds.dropWhile isSpace)).resolve_right hbad
    rw [ht]
    rcases urlBody_reads hbad with hreach | ⟨hnil, hcut⟩
    · left
      obtain ⟨body, hbody, he'⟩ := hreach.append hfront
      refine ⟨body, ?_, hbody⟩
      have hall : body ++ [')'] ++ (urlBody [] (ds.dropWhile isSpace)).2 =
          read ++ (urlBody [] (ds.dropWhile isSpace)).2 := by
        rw [← hread, he, he']
        simp
      exact (List.append_cancel_right hall).symm
    · right
      rw [hnil, List.append_nil] at hread
      refine ⟨hnil, ?_⟩
      rw [← hread, he]
      exact hcut.append hfront

/-- A token that has an end mark reaches it, or it is read up to the end of the
text. -/
theorem ended_or_cut {c : Char} {cs read : List Char} (hread : cs = read ++ (token c cs).2)
    (hstring : (token c cs).1 ≠ .badString) (hurl : (token c cs).1 ≠ .badUrl) :
    Lexeme.IsEnded ⟨(token c cs).1, c :: read⟩ ∨
      ((token c cs).2 = [] ∧ Lexeme.IsCut ⟨(token c cs).1, c :: read⟩) := by
  cases token_starts c cs with
  | plain h => exact .inl (isEnded_of_not_isDelimited (isDelimited_of_isPlain h))
  | sign _ h => exact .inl (isEnded_of_not_isDelimited h)
  | comment ds hc hcs =>
    subst hc hcs
    exact comment_ended_or_cut hread
  | quote hq =>
    rw [token_quote hq] at hread hstring ⊢
    exact string_ended_or_cut hq hread hstring
  | ident h =>
    have htoken : token c cs = identLike (c :: cs) := by simpa using h [] (.inl rfl)
    rw [htoken] at hread hurl ⊢
    exact identLike_ended_or_cut (by rw [List.cons_append, ← hread]) hurl

/-! ## A bracket as the end mark -/

section
variable {c : Char} {cs : List Char} (hd : (token c cs).1.isDelimited = true)
include hd

theorem delimited_starts :
    (∃ ds, c = '/' ∧ cs = '*' :: ds) ∨ isQuote c = true ∨
      ∃ ds, (name (c :: cs)).2 = '(' :: ds ∧
        ∀ y, Bracketed y → token c (cs ++ y) = urlBody [] (ds.dropWhile isSpace ++ y) := by
  cases token_starts c cs with
  | plain h =>
    rw [isDelimited_of_isPlain h] at hd
    cases hd
  | sign _ h =>
    rw [h] at hd
    cases hd
  | comment ds hc hcs => exact .inl ⟨ds, hc, hcs⟩
  | quote hq => exact .inr (.inl hq)
  | ident h =>
    have hnil : token c cs = identLike (c :: cs) := by simpa using h [] (.inl rfl)
    obtain ⟨ds, hds, hbody⟩ := identLike_url (by rwa [← hnil])
    exact .inr (.inr ⟨ds, hds, fun y hy => (h y hy).trans (hbody y hy)⟩)

/-- What is read as a comment, a string or a url is so with a bracket behind it. -/
theorem isDelimited_bracket {y : List Char} (hy : Bracketed y) :
    (token c (cs ++ y)).1.isDelimited = true := by
  rcases delimited_starts hd with ⟨ds, rfl, rfl⟩ | hq | ⟨ds, -, hbody⟩
  · rfl
  · rw [token_quote hq]
    rcases string_token c (cs ++ y) with ⟨v, ht⟩ | ht <;> rw [ht] <;> rfl
  · rw [hbody y hy]
    rcases urlBody_token [] (ds.dropWhile isSpace ++ y) with ⟨v, ht⟩ | ht <;> rw [ht] <;> rfl

/-- If it ends in the bracket then, it is a url and the bracket a parenthesis. -/
theorem url_of_isEnded {d : Char} (hb : isBracket d = true) {z text : List Char}
    (h : Lexeme.IsEnded ⟨(token c (cs ++ d :: z)).1, c :: text ++ [d]⟩) :
    d = ')' ∧ (∃ v, (token c (cs ++ d :: z)).1 = .url v) ∧ Inside ')' (c :: text) := by
  rcases delimited_starts hd with ⟨ds, rfl, rfl⟩ | hq | ⟨ds, -, hbody⟩
  · obtain ⟨body, hbody⟩ := h
    have hlast : '/' :: text ++ [d] = ('/' :: '*' :: body ++ ['*']) ++ ['/'] := by simpa using hbody
    rw [(List.cons.inj (List.append_inj' hlast rfl).2).1] at hb
    cases hb
  · rw [token_quote hq] at h
    rcases string_token c (cs ++ d :: z) with ⟨v, ht⟩ | ht
    · rw [ht] at h
      obtain ⟨quote, body, hbody, -⟩ := h
      obtain rfl : c = quote := (List.cons.inj hbody).1
      have hlast : c :: text ++ [d] = (c :: body) ++ [c] := hbody
      rw [(List.cons.inj (List.append_inj' hlast rfl).2).1, (of_isQuote hq).1] at hb
      cases hb
    · rw [ht] at h
      exact h.elim
  · rw [hbody _ (bracketed_cons hb z)] at h ⊢
    rcases urlBody_token [] (ds.dropWhile isSpace ++ d :: z) with ⟨v, ht⟩ | ht
    · rw [ht] at h ⊢
      obtain ⟨body, htext, hinside⟩ := h
      obtain ⟨rfl, hlast⟩ := List.append_inj' htext rfl
      exact ⟨(List.cons.inj hlast).1, ⟨v, rfl⟩, hinside⟩
    · rw [ht] at h
      exact h.elim

/-- A parenthesis behind it ends a url that its text has left open. -/
theorem token_close (h : Inside ')' (c :: cs)) (v z : List Char) :
    token c (cs ++ ')' :: z) = (.url v, z) ↔ token c cs = (.url v, []) := by
  rcases delimited_starts hd with ⟨ds, rfl, rfl⟩ | hq | ⟨ds, hds, hy⟩
  · constructor <;> intro ht <;> cases ht
  · rw [token_quote hq, token_quote hq]
    constructor <;> intro ht
    · rcases string_token c (cs ++ ')' :: z) with ⟨w, hw⟩ | hw <;> rw [ht] at hw <;> cases hw
    · rcases string_token c cs with ⟨w, hw⟩ | hw <;> rw [ht] at hw <;> cases hw
  · have hbody := hy [] (.inl rfl)
    rw [List.append_nil, List.append_nil] at hbody
    obtain ⟨front, hfront, he⟩ := url_inside hds
    rw [he, hfront.append_iff] at h
    rw [hy _ (bracketed_cons (by decide) z), hbody, urlBody_close h]

end

theorem take_token (c : Char) (cs : List Char) :
    cs.take (cs.length - (token c cs).2.length) ++ (token c cs).2 = cs := by
  obtain ⟨read, hread⟩ := token_suffix c cs
  have hlen : cs.length - (token c cs).2.length = read.length := by
    have := congrArg List.length hread
    rw [List.length_append] at this
    omega
  conv => lhs; arg 1; rw [hlen, ← hread]
  rw [List.take_left, hread]

/-- Only the last lexeme of a text can be cut. -/
theorem ended_or_last {x : List Char} {front rest : List Lexeme} {l : Lexeme}
    (h : lexemes x = front ++ l :: rest) (hstring : l.token ≠ .badString) (hurl : l.token ≠ .badUrl) :
    l.IsEnded ∨ (rest = [] ∧ l.IsCut) := by
  induction x using lexemes.induct generalizing front with
  | case1 => simp [lexemes] at h
  | case2 c cs after =>
    rename_i ih
    rw [lexemes] at h
    cases front with
    | nil =>
      obtain ⟨rfl, rfl⟩ := List.cons.inj h
      refine (ended_or_cut (take_token c cs).symm hstring hurl).imp id fun ⟨hnil, hcut⟩ => ⟨?_, hcut⟩
      rw [hnil, lexemes]
    | cons m front => exact ih (List.cons.inj h).2

end VarLogic.Css
