/-
Which texts are hooks. The check of the tokens passes the texts of the grammar
and those it takes to be closed because of their last character: the ones that
are in the grammar once the bracket they end in is put behind them as often as
it is due (`parse_ok_iff`).
-/
import VarLogic.Proofs.Css.Boundary
import VarLogic.Proofs.Hook.Grammar
import VarLogic.Proofs.Hook.Parse

namespace VarLogic.Hook

open Css

/-- The text is in the grammar once the bracket it ends in is put behind it
often enough. -/
def LeftOpen (cs : List Char) : Prop :=
  ∃ c n, cs.getLast? = some c ∧ (c = ')' ∨ c = ']') ∧ Closed (lexemes (cs ++ List.replicate n c))

section
variable {c : Char} (hc : c = ')' ∨ c = ']')
include hc

theorem isBracket_of_closer : isBracket c = true := by
  rcases hc with rfl | rfl <;> rfl

theorem bracketed_replicate (n : Nat) : Bracketed (List.replicate n c) := by
  cases n with
  | zero => exact .inl rfl
  | succ n => exact bracketed_cons (isBracket_of_closer hc) _

/-- Each bracket put behind a text is a lexeme. -/
theorem lexemes_replicate : ∃ l : Lexeme, role l.token = .closes c ∧
    ∀ n, lexemes (List.replicate n c) = List.replicate n l := by
  rcases hc with rfl | rfl
  · refine ⟨⟨.closeParen, [')']⟩, rfl, fun n => ?_⟩
    induction n with
    | zero => exact lexemes_nil
    | succ n ih => rw [List.replicate_succ, lexemes_of_token_one rfl, ih, List.replicate_succ]
  · refine ⟨⟨.closeSquare, [']']⟩, rfl, fun n => ?_⟩
    induction n with
    | zero => exact lexemes_nil
    | succ n ih => rw [List.replicate_succ, lexemes_of_token_one rfl, ih, List.replicate_succ]

/-- The brackets put behind a walk close what it has left open. -/
theorem leaves_closers {ls : List Lexeme} {n : Nat} :
    Leaves Lexeme.IsEnded [] (ls ++ lexemes (List.replicate n c)) [] ↔
      Leaves Lexeme.IsEnded [] ls (List.replicate n c) := by
  obtain ⟨l, hl, hlex⟩ := lexemes_replicate hc
  rw [hlex, leaves_append]
  constructor
  · rintro ⟨mid, hls, hmid⟩
    rwa [(leaves_replicate hl).1 hmid] at hls
  · intro h
    exact ⟨_, h, (leaves_replicate hl).2 rfl⟩

end

theorem getLast?_eq_some {cs front : List Char} {c : Char} (h : cs = front ++ [c]) :
    cs.getLast? = some c := by
  rw [h, List.getLast?_concat]

theorem checkTokens_eq_ok {cs : List Char} :
    checkTokens cs = .ok () ↔
      ∃ left, Leaves Checked [] (lexemes cs) left ∧ ∀ c ∈ left, cs.getLast? = some c :=
  checkLexemes_eq_ok

theorem checkTokens_of_leaves {cs : List Char} {c : Char} {n : Nat} (hlast : cs.getLast? = some c)
    (h : Leaves Checked [] (lexemes cs) (List.replicate n c)) : checkTokens cs = .ok () :=
  checkTokens_eq_ok.2 ⟨_, h, fun d hd => by rw [hlast, (List.mem_replicate.1 hd).2]⟩

theorem checkTokens_of_closed {cs : List Char} (h : Closed (lexemes cs)) : checkTokens cs = .ok () := by
  refine checkTokens_eq_ok.2 ⟨[], ?_, by simp⟩
  exact (closed_iff.1 h).mono fun l _ _ => checked_of_isEnded

theorem neutral_of_isDelimited {t : Token} (h : t.isDelimited = true) (hr : role t ≠ .banned) :
    role t = .neutral := by
  cases t <;> first | rfl | exact absurd rfl hr | cases h

/-- The last lexeme of a text that runs on behind brackets was a url, and the
first of them ends it. -/
theorem url_of_open {cs ds : List Char} {front : List Lexeme} {c d : Char} {m : Nat}
    (ho : Open cs front d ds) (hc : c = ')' ∨ c = ']') (hlast : cs.getLast? = some c)
    (h : Closed (lexemes (cs ++ c :: List.replicate m c))) :
    c = ')' ∧ (∃ v, token d ds = (.url v, [])) ∧ Leaves Lexeme.IsEnded [] front (List.replicate m c) := by
  have hd := isBracket_of_closer hc
  obtain ⟨read, rest, hz, hrest, hlex⟩ := ho.lexemes_bracket hd (List.replicate m c)
  have hslash : ¬ ['\\'] <:+ d :: ds := by
    rintro ⟨es, he⟩
    have hcs := getLast?_eq_some (ho.whole.symm.trans (by rw [← he, List.append_assoc]))
    rw [hlast] at hcs
    rw [Option.some.inj hcs] at hd
    cases hd
  have hdelim := isDelimited_of_isCut (ho.cause.resolve_left hslash)
  rw [hlex] at h
  have hwalk := closed_iff.1 h
  obtain ⟨hbanned, hended⟩ := hwalk.of_append_cons
  -- The longer lexeme ends in the bracket.
  have hread : ∃ es, ds ++ c :: read = es ++ [c] := by
    rcases List.eq_nil_or_concat read with rfl | ⟨r, e, rfl⟩
    · exact ⟨ds, rfl⟩
    · have he : e ∈ List.replicate m c := by simp [hz]
      exact ⟨ds ++ c :: r, by simp [(List.mem_replicate.1 he).2]⟩
  obtain ⟨es, hes⟩ := hread
  rw [hes] at hended
  have hneutral := neutral_of_isDelimited (isDelimited_bracket hdelim (bracketed_cons hd _)) hbanned
  obtain ⟨rfl, ⟨v, hv⟩, hinside⟩ := url_of_isEnded hdelim hd (hended hneutral)
  -- It takes only one of the brackets, since the next one would not be escaped.
  obtain rfl : read = [] := by
    rcases List.eq_nil_or_concat read with rfl | ⟨r, e, rfl⟩
    · rfl
    · exfalso
      have htext : (ds ++ ')' :: r) ++ [e] = es ++ [')'] := by simpa using hes
      rw [← (List.append_inj' htext rfl).1] at hinside
      exact hslash (hinside.backslash_of_append (by decide) rfl)
  obtain rfl : List.replicate m ')' = rest := hz
  obtain rfl : ds = es := (List.append_inj' hes rfl).1
  refine ⟨rfl, ⟨v, (token_close hdelim hinside v _).1 (Prod.ext hv hrest)⟩, ?_⟩
  obtain ⟨mid, hfront, hmid⟩ := leaves_append.1 hwalk
  obtain ⟨l, hl, hlex⟩ := lexemes_replicate hc
  rw [hv, leaves_neutral rfl, hlex, leaves_replicate hl] at hmid
  rwa [hmid.2] at hfront

theorem last_of_open {cs ds : List Char} {front : List Lexeme} {d : Char} (ho : Open cs front d ds)
    {c : Char} (hlast : cs.getLast? = some c) : (d :: ds).getLast? = some c := by
  rw [← ho.whole] at hlast
  rcases List.eq_nil_or_concat (d :: ds) with hnil | ⟨es, e, he⟩
  · cases hnil
  · rw [he, List.concat_eq_append] at hlast ⊢
    rw [← List.append_assoc, List.getLast?_concat] at hlast
    rw [List.getLast?_concat, hlast]

/-- A text that brackets behind it bring into the grammar passes. -/
theorem checkTokens_of_leftOpen {cs : List Char} (h : LeftOpen cs) : checkTokens cs = .ok () := by
  obtain ⟨c, n, hlast, hc, h⟩ := h
  rcases solid_or_open cs with hs | ⟨front, d, ds, ho⟩
  · rw [hs _ (bracketed_replicate hc n), closed_iff, leaves_closers hc] at h
    exact checkTokens_of_leaves hlast (h.mono fun l _ _ => checked_of_isEnded)
  · cases n with
    | zero =>
      rw [List.replicate_zero, List.append_nil] at h
      exact checkTokens_of_closed h
    | succ m =>
      obtain ⟨rfl, ⟨v, ht⟩, hfront⟩ := url_of_open ho hc hlast h
      refine checkTokens_of_leaves (n := m) hlast ?_
      rw [ho.lexemes_eq, ht, leaves_append]
      have hchecked : Checked ⟨.url v, d :: ds⟩ := by
        simp [Checked, endsUrl, last_of_open ho hlast]
      exact ⟨_, hfront.mono fun l _ _ => checked_of_isEnded, (leaves_neutral rfl).2 ⟨hchecked, rfl⟩⟩

theorem ne_bad_of_neutral {l : Lexeme} (h : role l.token = .neutral) :
    l.token ≠ .badString ∧ l.token ≠ .badUrl := by
  refine ⟨?_, ?_⟩ <;> intro ht <;> rw [ht] at h <;> cases h

/-- All lexemes but the last have their end marks. -/
theorem isEnded_of_front {x : List Char} {front : List Lexeme} {l m : Lexeme}
    (h : lexemes x = front ++ [l]) (hm : m ∈ front) (hr : role m.token = .neutral) : m.IsEnded := by
  obtain ⟨a, b, rfl⟩ := List.append_of_mem hm
  rw [List.append_assoc, List.cons_append] at h
  have hbad := ne_bad_of_neutral hr
  refine (ended_or_last h hbad.1 hbad.2).resolve_right fun ⟨hnil, _⟩ => ?_
  simp at hnil

/-- A url that is cut is open at the end of its text, and a parenthesis ends it. -/
theorem lexemes_url {cs : List Char} {front : List Lexeme} {l : Lexeme} {v : List Char}
    (hlex : lexemes cs = front ++ [l]) (hcut : l.IsCut) (hv : l.token = .url v)
    (hinside : Inside ')' l.text) (n : Nat) :
    lexemes (cs ++ ')' :: List.replicate n ')') =
      front ++ ⟨.url v, l.text ++ [')']⟩ :: lexemes (List.replicate n ')') := by
  have hbad := ne_bad_of_neutral (l := l) (by rw [hv]; rfl)
  rcases solid_or_open cs with hs | ⟨front', d, ds, ho⟩
  · have hparen : lexemes (cs ++ [')']) = front ++ l :: lexemes [')'] := by
      rw [hs _ (bracketed_cons rfl []), hlex, List.append_assoc, List.singleton_append]
    rcases ended_or_last hparen hbad.1 hbad.2 with hended | ⟨hnil, -⟩
    · exact absurd hcut hended.not_isCut
    · rw [lexemes_of_token_one rfl] at hnil
      cases hnil
  · obtain ⟨rfl, hl⟩ := List.append_inj' (ho.lexemes_eq.symm.trans hlex) rfl
    obtain rfl := (List.cons.inj hl).1
    have htoken : token d ds = (.url v, []) := Prod.ext hv ho.runsOn.all
    have hclose := (token_close (by rw [htoken]; rfl) hinside v (List.replicate n ')')).2 htoken
    have happend : ds ++ ')' :: List.replicate n ')' = (ds ++ [')']) ++ List.replicate n ')' := by simp
    rw [happend] at hclose
    rw [ho.lexemes_append _ (bracketed_cons rfl _), happend, lexemes_of_token hclose]
    rfl

/-- The check misses only the end of a url, and there a parenthesis is missing. -/
theorem leftOpen_of_url {cs : List Char} {front : List Lexeme} {l : Lexeme} {left : List Char}
    (hlex : lexemes cs = front ++ [l]) (hcut : l.IsCut) (hwalk : Leaves Checked [] (lexemes cs) left)
    (hleft : ∀ c ∈ left, cs.getLast? = some c) : LeftOpen cs := by
  rw [hlex] at hwalk
  obtain ⟨hbanned, hchecked⟩ := hwalk.of_append_cons
  have hneutral := neutral_of_isDelimited (isDelimited_of_isCut hcut) hbanned
  have hbad := ne_bad_of_neutral hneutral
  obtain ⟨⟨v, hv⟩, hinside, hlast⟩ := url_of_checked hcut (hchecked hneutral) hbad.1 hbad.2
  have hcs : cs.getLast? = some ')' := by
    have htexts := texts_lexemes cs
    rw [hlex] at htexts
    rw [← htexts]
    simp [List.getLast?_append, hlast]
  have hall : left = List.replicate left.length ')' :=
    List.eq_replicate_iff.2 ⟨rfl, fun c hc => Option.some.inj ((hleft c hc).symm.trans hcs)⟩
  obtain ⟨mid, hfront, hl⟩ := leaves_append.1 hwalk
  obtain rfl : left = mid := ((leaves_neutral hneutral).1 hl).2
  refine ⟨')', left.length + 1, hcs, .inl rfl, ?_⟩
  rw [List.replicate_succ, lexemes_url hlex hcut hv hinside, closed_iff, leaves_append]
  obtain ⟨m, hm, hlexm⟩ := lexemes_replicate (.inl rfl : ')' = ')' ∨ ')' = ']')
  refine ⟨left, hfront.mono fun m hm hr _ => isEnded_of_front hlex hm hr, ?_⟩
  rw [leaves_neutral rfl, hlexm, leaves_replicate hm]
  exact ⟨⟨l.text, rfl, hinside⟩, hall⟩

theorem leftOpen_of_leaves {cs : List Char} {c : Char} {n : Nat} (hlast : cs.getLast? = some c)
    (hc : c = ')' ∨ c = ']') (h : Leaves Lexeme.IsEnded [] (lexemes cs) (List.replicate n c)) :
    LeftOpen cs := by
  refine ⟨c, n, hlast, hc, ?_⟩
  rcases solid_or_open cs with hs | ⟨front, d, ds, ho⟩
  · rwa [hs _ (bracketed_replicate hc n), closed_iff, leaves_closers hc]
  · exfalso
    rw [ho.lexemes_eq] at h
    rcases ho.cause with ⟨es, he⟩ | hcut
    · have hlast' := last_of_open ho hlast
      rw [← he, List.getLast?_concat] at hlast'
      rcases hc with rfl | rfl <;> cases hlast'
    · obtain ⟨hbanned, hended⟩ := h.of_append_cons
      exact (hended (neutral_of_isDelimited (isDelimited_of_isCut hcut) hbanned)).not_isCut hcut

/-- **The check of the tokens** passes the texts of the grammar, and those that
are in it once the bracket they end in is put behind them. -/
theorem checkTokens_ok_iff (cs : List Char) :
    checkTokens cs = .ok () ↔ Closed (lexemes cs) ∨ LeftOpen cs := by
  constructor
  · intro h
    obtain ⟨left, hwalk, hleft⟩ := checkTokens_eq_ok.1 h
    by_cases hall : ∀ l ∈ lexemes cs, role l.token = .neutral → l.IsEnded
    · have hwalk : Leaves Lexeme.IsEnded [] (lexemes cs) left :=
        hwalk.mono fun l hl hr _ => hall l hl hr
      cases left with
      | nil => exact .inl (closed_iff.2 hwalk)
      | cons c left =>
        have hlast := hleft c (by simp)
        have hsame : c :: left = List.replicate (left.length + 1) c :=
          List.eq_replicate_iff.2
            ⟨rfl, fun d hd => Option.some.inj ((hleft d hd).symm.trans hlast)⟩
        have hc := hwalk.bracket (by simp) c (by simp)
        rw [hsame] at hwalk
        exact .inr (leftOpen_of_leaves hlast hc hwalk)
    · right
      simp only [Classical.not_forall] at hall
      obtain ⟨l, hl, hr, hended⟩ := hall
      obtain ⟨front, rest, hlex⟩ := List.append_of_mem hl
      have hbad := ne_bad_of_neutral hr
      obtain ⟨rfl, hcut⟩ := (ended_or_last hlex hbad.1 hbad.2).resolve_left hended
      exact leftOpen_of_url hlex hcut hwalk hleft
  · rintro (h | h)
    · exact checkTokens_of_closed h
    · exact checkTokens_of_leftOpen h

/-- **What parses as a hook**: a text that starts as one, and whose tokens pass
the check. -/
theorem parse_ok_iff (text : String) :
    (∃ hook, parse text = .ok hook) ↔ (∃ hook, Starts text hook) ∧
      (Closed (lexemes text.toList) ∨ LeftOpen text.toList) := by
  simp only [parse_eq_ok, checkTokens_ok_iff, exists_and_right]

theorem parse_selector {text : String} (hstart : text.toList.head? ≠ some '@')
    (hmem : '&' ∈ text.toList) (hcheck : (checkTokens text.toList).isOk = true) :
    parse text = .ok (.selector text) := by
  refine parse_eq_ok.2 ⟨.selector hstart hmem, ?_⟩
  cases hc : checkTokens text.toList with
  | ok u => rfl
  | error fault =>
    rw [hc] at hcheck
    cases hcheck

/-- The parenthesis at the end of this hook is escaped, and the function open. -/
theorem parse_escaped_paren : parse "&:is(\\)" = .ok (.selector "&:is(\\)") :=
  parse_selector (by decide) (by decide) (by decide +kernel)

theorem not_closed_escaped_paren : ¬ Closed (lexemes "&:is(\\)".toList) := by
  have hlex : lexemes "&:is(\\)".toList =
      [⟨.delim '&', ['&']⟩, ⟨.colon, [':']⟩, ⟨.function ['i', 's'], ['i', 's', '(']⟩,
        ⟨.ident [')'], ['\\', ')']⟩] := by
    decide +kernel
  rw [closed_iff, hlex]
  simp [Leaves, role]

/-- **Parsing keeps to the grammar** for all texts but those that are left open
by the bracket they end in. -/
theorem parse_iff_closed_iff (text : String) :
    ((∃ hook, parse text = .ok hook) ↔ (∃ hook, Starts text hook) ∧ Closed (lexemes text.toList)) ↔
      ((∃ hook, Starts text hook) → LeftOpen text.toList → Closed (lexemes text.toList)) := by
  rw [parse_ok_iff]
  constructor
  · intro h hstarts hopen
    exact (h.1 ⟨hstarts, .inr hopen⟩).2
  · intro h
    refine ⟨fun ⟨hstarts, hcase⟩ => ⟨hstarts, hcase.elim id (h hstarts)⟩, fun ⟨hstarts, hclosed⟩ => ?_⟩
    exact ⟨hstarts, .inl hclosed⟩

theorem parse_beyond_grammar :
    ¬ ((∃ hook, parse "&:is(\\)" = .ok hook) ↔
      (∃ hook, Starts "&:is(\\)" hook) ∧ Closed (lexemes "&:is(\\)".toList)) :=
  fun h => not_closed_escaped_paren (h.1 ⟨_, parse_escaped_paren⟩).2

end VarLogic.Hook
