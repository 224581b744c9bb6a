/-
Tokens and stars for ampersands. A token without an ampersand is the same with
stars for those behind it, and one with an ampersand is another one with a star
(`token_tracks`), unless the ampersand is the token, or stands behind a slash. So
the characters of a text can be rewritten for its references to the element
exactly where these stand apart (`tokens_starred_iff`).
-/
import VarLogic.Proofs.Css.Lexer
import VarLogic.Proofs.Css.Starred

namespace VarLogic.Css

/-! ## Comments -/

theorem comment_tracks (cs : List Char) : Tracks comment cs := by
  induction cs using comment.induct with
  | case1 => exact .inl (.stay [] fun es hes => by rcases hes with rfl | rfl <;> rfl)
  | case2 cs => exact .inl (.stop ['*', '/'] [] (by decide) fun es _ => rfl)
  | case3 c cs h ih =>
    by_cases hc : c = '&'
    · subst hc
      have hread : comment ('&' :: cs) = ('&' :: (comment cs).1, (comment cs).2) :=
        comment_cons fun _ hc _ => absurd hc (by decide)
      refine .inr (.of_mem ['&'] (by simp) ?_ ?_)
      · rw [List.singleton_append, hread]
        exact comment_suffix cs
      · rw [List.singleton_append, hread]
        change (comment ('*' :: starred cs)).1 ≠ _
        by_cases hs : ∃ ds, starred cs = '/' :: ds
        · obtain ⟨ds, hds⟩ := hs
          rw [hds]
          exact List.cons_ne_nil _ _ |>.symm
        · rw [comment_cons fun ds _ hds => hs ⟨ds, hds⟩]
          simp
    · refine Tracks.step ih [c] List.cons_injective (by simpa using Ne.symm hc)
        fun es hes => comment_cons fun ds hc hds => ?_
      obtain ⟨fs, hfs, -⟩ := hes.of_cons (by decide) (by decide) hds
      exact h fs hc hfs

/-! ## Strings -/

theorem dropLine_clear {cs : List Char} (hl : startsLine cs = true) :
    Clear (fun cs => ((), dropLine cs)) cs := by
  by_cases h : ∃ ds, cs = '\r' :: '\n' :: ds
  · obtain ⟨ds, rfl⟩ := h
    exact .stop ['\r', '\n'] () (by decide) fun es _ => rfl
  cases cs with
  | nil => cases hl
  | cons c cs =>
    refine .stop [c] () (by simp [ampersand_ne (p := isNewline) rfl hl]) fun es hes => ?_
    have hread : dropLine (c :: es) = es := dropLine.eq_2 c es fun fs hc hfs => by
      obtain ⟨gs, hgs, -⟩ := hes.of_cons (by decide) (by decide) hfs
      exact h ⟨gs, by rw [hc, hgs]⟩
    rw [List.singleton_append, hread]

theorem prepend_injective (c : Char) : Function.Injective (string.prepend c) := by
  intro t t' h
  unfold string.prepend at h
  split at h <;> split at h <;> grind

theorem prepend_ne {c d : Char} (h : c ≠ d) (t : Token) (value : List Char) :
    string.prepend c t ≠ string.prepend d (.string value) := by
  unfold string.prepend
  split
  · simp [h]
  · rename_i hne
    exact fun he => hne _ he

/-- What an ampersand or a star in front of the rest makes of it. -/
theorem prepend_string_ne {quote c d : Char} {cs : List Char} (t : Token) (hcd : c ≠ d)
    (h : string.prepend d (string quote cs).1 ≠ .badString) :
    string.prepend c t ≠ string.prepend d (string quote cs).1 := by
  rcases string_token quote cs with ⟨v, hv⟩ | hv
  · rw [hv]
    exact prepend_ne hcd t v
  · rw [hv] at h
    exact absurd rfl h

/-- A string reads its characters one by one. -/
theorem string_tracks {quote : Char} (hq : isQuote quote = true) {cs : List Char}
    (h : (string quote cs).1 ≠ .badString) : Tracks (string quote) cs := by
  have hquote : quote ≠ '*' ∧ quote ≠ '&' := by
    have hc : quote = '"' ∨ quote = '\'' := by simpa [isQuote] using hq
    rcases hc with rfl | rfl <;> decide
  induction cs using string.induct quote with
  | case1 =>
    refine .inl (.stay (.string []) fun es hes => ?_)
    obtain rfl : es = [] := hes.elim id id
    rw [string]
  | case2 cs =>
    refine .inl (.stop [quote] (.string []) (by simpa using hquote.2.symm) fun es _ => ?_)
    rw [List.singleton_append, string, if_pos rfl]
  | case3 c cs hc hn =>
    rw [string, if_neg hc, if_pos hn] at h
    exact absurd rfl h
  | case4 =>
    refine .inl (.stop ['\\'] (.string []) (by decide) fun es hes => ?_)
    obtain rfl : es = [] := hes.elim id id
    rw [List.singleton_append, string]
    simp [(of_isQuote hq).2.1.symm, show isNewline '\\' = false by decide]
  | case5 cs hcs hl _ _ ih =>
    rw [string_line hq hcs hl] at h
    have hnext : Tracks (fun cs => string quote (dropLine cs)) cs :=
      (dropLine_clear hl).bind (fun _ => string quote) (ih h)
    exact hnext.step ['\\'] Function.injective_id (by decide) fun es hes =>
      string_line hq (mt hes.eq_nil_iff.1 hcs) (hes.startsLine_eq.trans hl)
  | case6 cs hcs hl _ _ ih =>
    have hl : startsLine cs = false := by simpa using hl
    rw [string_escape hq hcs hl] at h
    rcases escape_clear cs with hescape | ⟨ds, rfl⟩
    · have hgood : (string quote (escape cs).2).1 ≠ .badString := fun hbad => h (by rw [hbad]; rfl)
      have hrest : Tracks (fun cs => (string.prepend (escape cs).1 (string quote (escape cs).2).1,
          (string quote (escape cs).2).2)) cs :=
        hescape.bind (fun c cs => (string.prepend c (string quote cs).1, (string quote cs).2))
          ((ih hgood).map (prepend_injective _) fun _ _ => rfl)
      exact hrest.step ['\\'] Function.injective_id (by decide) fun es hes =>
        string_escape hq (mt hes.eq_nil_iff.1 hcs) (hes.startsLine_eq.trans hl)
    · have hthis : string quote ('\\' :: '&' :: ds) = _ := string_escape hq hcs hl
      have hstar : string quote ('\\' :: '*' :: starred ds) = _ := string_escape hq (by simp) rfl
      refine .inr (.of_mem ['\\', '&'] (by simp) ?_ ?_)
      · change (string quote ('\\' :: '&' :: ds)).2 <:+ ds
        rw [hthis]
        exact string_suffix quote ds
      · change (string quote ('\\' :: '*' :: starred ds)).1 ≠ (string quote ('\\' :: '&' :: ds)).1
        rw [hthis, hstar]
        exact prepend_string_ne _ (by rw [escape_ampersand, escape_star]; simp) h
  | case7 c cs hc hn hb ih =>
    have hn : isNewline c = false := by simpa using hn
    have hthis : string quote (c :: cs) = _ := string_other hc hn hb cs
    rw [hthis] at h
    by_cases ha : c = '&'
    · subst ha
      have hstar : string quote ('*' :: starred cs) = _ :=
        string_other hquote.1.symm (by decide) (by decide) (starred cs)
      refine .inr (.of_mem ['&'] (by simp) ?_ ?_)
      · rw [List.singleton_append, hthis]
        exact string_suffix quote cs
      · change (string quote ('*' :: starred cs)).1 ≠ (string quote ('&' :: cs)).1
        rw [hthis, hstar]
        exact prepend_string_ne _ (by decide) h
    · have hgood : (string quote cs).1 ≠ .badString := fun hbad => h (by rw [hbad]; rfl)
      exact (ih hgood).step [c] (prepend_injective _) (by simpa using Ne.symm ha)
        fun es _ => string_other hc hn hb es

/-! ## Urls -/

theorem urlEnd_clear {value cs : List Char} (h : (urlEnd value cs).1 ≠ .badUrl) :
    Clear (urlEnd value) cs := by
  induction cs with
  | nil => exact .stay (.url value) fun es hes => by rcases hes with rfl | rfl <;> rfl
  | cons c cs ih =>
    by_cases hc : c = ')'
    · subst hc
      exact .stop [')'] (.url value) (by decide) fun es _ => rfl
    · cases hs : isSpace c with
      | true =>
        have hread : ∀ es, urlEnd value (c :: es) = urlEnd value es := fun es => by
          simp [urlEnd, hc, hs]
        rw [hread] at h
        exact (ih h).step [c] id (by simp [ampersand_ne (p := isSpace) rfl hs])
          fun es _ => hread es
      | false =>
        exact absurd (by simp [urlEnd, hc, hs]) h

theorem urlEnd_value {value cs v : List Char} (h : (urlEnd value cs).1 = .url v) : v = value := by
  induction cs with
  | nil => exact (Token.url.inj h).symm
  | cons c cs ih =>
    unfold urlEnd at h
    split at h
    · exact (Token.url.inj h).symm
    · split at h
      · exact ih h
      · cases h

/-- A url has the characters read so far in front. -/
theorem urlBody_starts {value cs v : List Char} (h : (urlBody value cs).1 = .url v) :
    value.reverse <+: v := by
  have hcons : ∀ {c : Char} {value : List Char}, (c :: value).reverse <+: v → value.reverse <+: v :=
    fun {c value} h => by
      rw [List.reverse_cons] at h
      exact (List.prefix_append _ _).trans h
  fun_induction urlBody value cs with
  | case1 => exact Token.url.inj h ▸ List.prefix_refl _
  | case2 => exact urlEnd_value h ▸ List.prefix_refl _
  | case3 => exact Token.url.inj h ▸ List.prefix_refl _
  | case4 => cases h
  | case5 => cases h
  | case6 _ _ _ _ _ _ ih => exact hcons (ih h)
  | case7 _ _ _ _ _ _ _ ih => exact hcons (ih h)

theorem urlBody_ne {c d : Char} (hcd : c ≠ d) {value cs ds : List Char}
    (h : (urlBody (d :: value) ds).1 ≠ .badUrl) :
    (urlBody (c :: value) cs).1 ≠ (urlBody (d :: value) ds).1 := by
  obtain ⟨v, hv⟩ := (urlBody_token (d :: value) ds).resolve_right h
  intro he
  have hstart : (c :: value).reverse <+: (d :: value).reverse :=
    List.prefix_of_prefix_length_le (urlBody_starts (he.trans hv)) (urlBody_starts hv) (by simp)
  exact hcd (List.cons.inj (List.reverse_injective (hstart.eq_of_length (by simp)))).1

theorem urlBody_tracks {value cs : List Char} (h : (urlBody value cs).1 ≠ .badUrl) :
    Tracks (urlBody value) cs := by
  induction value, cs using urlBody.induct with
  | case1 value =>
    refine .inl (.stay (.url value.reverse) fun es hes => ?_)
    obtain rfl : es = [] := hes.elim id id
    rw [urlBody]
  | case2 value c cs hs =>
    rw [urlBody_space hs] at h
    refine .inl ((urlEnd_clear h).step [] id (by simp) fun es hes => ?_)
    rcases hes with rfl | rfl
    · exact urlBody_space hs value cs
    · exact urlBody_space ((apply_star isSpace rfl c).trans hs) value (starred cs)
  | case3 value cs =>
    refine .inl (.stop [')'] (.url value.reverse) (by decide) fun es _ => ?_)
    rw [List.singleton_append, urlBody]
    rfl
  | case4 value c cs hs hc hb => exact absurd (by rw [urlBody_stray hs hc hb]) h
  | case5 value cs hl => exact absurd (by rw [urlBody_line hl]) h
  | case6 value cs hl _ _ _ ih =>
    have hl : startsLine cs = false := by simpa using hl
    rw [urlBody_escape hl] at h
    rcases escape_clear cs with hescape | ⟨ds, rfl⟩
    · have hrest : Tracks (fun cs => urlBody ((escape cs).1 :: value) (escape cs).2) cs :=
        hescape.bind (fun c => urlBody (c :: value)) (ih h)
      exact hrest.step ['\\'] Function.injective_id (by decide) fun es hes =>
        urlBody_escape (hes.startsLine_eq.trans hl) value
    · refine .inr (.of_mem ['\\', '&'] (by simp) ?_ ?_)
      · change (urlBody value ('\\' :: '&' :: ds)).2 <:+ ds
        rw [urlBody_escape hl]
        exact urlBody_suffix _ ds
      · change (urlBody value ('\\' :: '*' :: starred ds)).1 ≠ (urlBody value ('\\' :: '&' :: ds)).1
        rw [urlBody_escape hl, urlBody_escape rfl]
        exact urlBody_ne (show '*' ≠ '&' by decide) h
  | case7 value c cs hs hc hb hbs ih =>
    have hp : isPlainUrl c = true := by simp_all [isPlainUrl]
    rw [urlBody_plain hp] at h
    by_cases ha : c = '&'
    · subst ha
      refine .inr (.of_mem ['&'] (by simp) ?_ ?_)
      · rw [List.singleton_append, urlBody_plain hp]
        exact urlBody_suffix _ cs
      · change (urlBody value ('*' :: starred cs)).1 ≠ (urlBody value ('&' :: cs)).1
        rw [urlBody_plain hp, urlBody_plain rfl]
        exact urlBody_ne (by decide) h
    · exact (ih h).step [c] Function.injective_id (by simpa using Ne.symm ha)
        fun es _ => urlBody_plain hp value es

/-! ## Names in front of parentheses -/

/-- What follows `url(` is a quoted string, or else the rest of a url. -/
theorem url?_alike (cs : List Char) :
    (∀ ds, Alike cs ds → url? ds = none) ∨
      ∃ blanks, '&' ∉ blanks ∧ cs = blanks ++ cs.dropWhile isSpace ∧
        ∀ ds, Alike (cs.dropWhile isSpace) ds → url? (blanks ++ ds) = some (urlBody [] ds) := by
  obtain ⟨blanks, hblanks, hspace, hspan⟩ := span_clear (p := isSpace) rfl rfl cs
  have hcs : cs = blanks ++ cs.dropWhile isSpace := hspace
  have hdrop : ∀ ds, Alike (cs.dropWhile isSpace) ds → (blanks ++ ds).dropWhile isSpace = ds :=
    fun ds hds => (Prod.mk.inj (hspan ds hds)).2
  by_cases hq : ∃ quote ds, (quote = '"' ∨ quote = '\'') ∧ cs.dropWhile isSpace = quote :: ds
  · obtain ⟨quote, ds, hq, hds⟩ := hq
    refine .inl fun es hes => ?_
    rw [hcs] at hes
    obtain ⟨fs, rfl, hfs⟩ := hes.of_append hblanks
    have hbody := hdrop fs hfs
    rw [hds] at hfs
    obtain ⟨gs, rfl, -⟩ := hfs.of_append (show '&' ∉ [quote] by rcases hq with rfl | rfl <;> decide)
    unfold url?
    rw [hbody]
    rcases hq with rfl | rfl <;> rfl
  · have hne : ∀ quote, (quote = '"' ∨ quote = '\'') → ∀ ds, Alike (cs.dropWhile isSpace) ds →
        ∀ es, ds ≠ quote :: es := fun quote hquote ds hds es he => by
      obtain ⟨fs, hfs, -⟩ := hds.of_cons (by rcases hquote with rfl | rfl <;> decide)
        (by rcases hquote with rfl | rfl <;> decide) he
      exact hq ⟨quote, fs, hquote, hfs⟩
    exact .inr ⟨blanks, hblanks, hcs, fun ds hds =>
      url?_of_body (hdrop ds hds) (hne _ (.inl rfl) ds hds) (hne _ (.inr rfl) ds hds)⟩

theorem url?_eq (cs : List Char) :
    url? cs = none ∨ url? cs = some (urlBody [] (cs.dropWhile isSpace)) := by
  unfold url?
  split
  · exact .inl rfl
  · exact .inl rfl
  · exact .inr rfl

theorem identLike_token (cs : List Char) :
    (identLike cs).1 = .ident (name cs).1 ∨ (identLike cs).1 = .function (name cs).1 ∨
      (name cs).1.map Char.toLower = ['u', 'r', 'l'] ∧
        ((∃ v, (identLike cs).1 = .url v) ∨ (identLike cs).1 = .badUrl) := by
  by_cases hp : ∃ ds, (name cs).2 = '(' :: ds
  · obtain ⟨ds, hds⟩ := hp
    rw [identLike_of_paren hds]
    split
    · rename_i hurl
      rcases url?_eq ds with hu | hu
      · rw [hu]
        exact .inr (.inl rfl)
      · rw [hu]
        exact .inr (.inr ⟨hurl, urlBody_token [] _⟩)
    · exact .inr (.inl rfl)
  · rw [identLike_of_ne fun ds hds => hp ⟨ds, hds⟩]
    exact .inl rfl

/-- What a name is by the text behind it. -/
def afterName (n rest : List Char) : Token × List Char :=
  match rest with
  | '(' :: ds =>
    if n.map Char.toLower = ['u', 'r', 'l'] then (url? ds).getD (.function n, ds)
    else (.function n, ds)
  | rest => (.ident n, rest)

theorem afterName_tracks {n rest : List Char} (h : (afterName n rest).1 ≠ .badUrl) :
    Tracks (afterName n) rest := by
  by_cases hp : ∃ ds, rest = '(' :: ds
  · obtain ⟨ds, rfl⟩ := hp
    by_cases hurl : n.map Char.toLower = ['u', 'r', 'l']
    · have hread : ∀ es, afterName n ('(' :: es) = (url? es).getD (.function n, es) :=
        fun es => if_pos hurl
      rcases url?_alike ds with hnone | ⟨blanks, hblanks, hds, hbody⟩
      · refine .inl (.stop ['('] (.function n) (by decide) fun es hes => ?_)
        rw [List.singleton_append, hread, hnone es hes, Option.getD_none]
      · have hr : ∀ es, Alike (ds.dropWhile isSpace) es →
            afterName n ('(' :: blanks ++ es) = urlBody [] es := fun es hes => by
          rw [List.cons_append, hread, hbody es hes, Option.getD_some]
        have hgood : (urlBody [] (ds.dropWhile isSpace)).1 ≠ .badUrl := by
          rwa [hds, ← List.cons_append, hr _ (.inl rfl)] at h
        rw [hds]
        exact (urlBody_tracks hgood).step ('(' :: blanks) Function.injective_id
          (by simpa using hblanks) hr
    · exact .inl (.stop ['('] (.function n) (by decide) fun es _ => if_neg hurl)
  · refine .inl (.stay (.ident n) fun es hes => ?_)
    unfold afterName
    split
    · obtain ⟨fs, hfs, -⟩ := hes.of_cons (by decide) (by decide) rfl
      exact absurd ⟨fs, hfs⟩ hp
    · rfl

/-- A name with an ampersand in it is no `url`, and is told from what it is with a
star. -/
theorem identLike_differs {cs : List Char} (hm : '&' ∈ (name cs).1) (h : Differs name cs) :
    Differs identLike cs := by
  have hnot : (name cs).1.map Char.toLower ≠ ['u', 'r', 'l'] := fun he => by
    have hmem : '&' ∈ (name cs).1.map Char.toLower := List.mem_map.2 ⟨'&', hm, rfl⟩
    rw [he] at hmem
    exact absurd hmem (by decide)
  obtain ⟨front, hf, hcs, hne⟩ := h
  obtain ⟨more, hmore⟩ := identLike_suffix_of_name (List.suffix_refl (name cs).2)
  refine ⟨front ++ more, by simp [hf], by rw [List.append_assoc, hmore, ← hcs], fun he => ?_⟩
  rcases identLike_token cs with ht | ht | ⟨hurl, -⟩
  · rw [ht] at he
    rcases identLike_token (starred cs) with ht' | ht' | ⟨-, ⟨v, ht'⟩ | ht'⟩ <;> rw [ht'] at he
    · exact hne (Token.ident.inj he)
    · cases he
    · cases he
    · cases he
  · rw [ht] at he
    rcases identLike_token (starred cs) with ht' | ht' | ⟨-, ⟨v, ht'⟩ | ht'⟩ <;> rw [ht'] at he
    · cases he
    · exact hne (Token.function.inj he)
    · cases he
    · cases he
  · exact hnot hurl

theorem identLike_tracks {cs : List Char} (h : (identLike cs).1 ≠ .badUrl) : Tracks identLike cs := by
  rcases name_clear_or_differs cs with hname | ⟨hm, hname⟩
  · change Tracks (fun cs => afterName (name cs).1 (name cs).2) cs
    exact hname.bind afterName (afterName_tracks h)
  · exact .inr (identLike_differs hm hname)

/-! ## Tokens -/

theorem match?_of_ne {cs : List Char} (h : ∀ ds, cs ≠ '=' :: ds) (c : Char) (t : Token) :
    match? c t cs = (.delim c, cs) := by
  unfold match?
  split
  · exact absurd rfl (h _)
  · rfl

theorem match?_clear (c : Char) (t : Token) (cs : List Char) : Clear (match? c t) cs := by
  by_cases h : ∃ ds, cs = '=' :: ds
  · obtain ⟨ds, rfl⟩ := h
    exact .stop ['='] t (by decide) fun es _ => rfl
  · refine .stay (.delim c) fun es hes => match?_of_ne (fun ds hds => ?_) c t
    obtain ⟨fs, hfs, -⟩ := hes.of_cons (by decide) (by decide) hds
    exact h ⟨fs, hfs⟩

/-- A reader that takes over with the first character of the token. -/
theorem tracks_of_whole {c : Char} {cs : List Char} {read : List Char → Token × List Char}
    (hc : c ≠ '&') (hr : ∀ es, Alike cs es → token c es = read (c :: es))
    (h : Tracks read (c :: cs)) : Tracks (token c) cs := by
  have hthis := hr cs (.inl rfl)
  -- The first character is taken.
  have htaken : ∀ {front}, c :: cs = front ++ (read (c :: cs)).2 →
      ∃ front', front = c :: front' ∧ cs = front' ++ (token c cs).2 := fun {front} hfront => by
    obtain ⟨front', hfront'⟩ := token_suffix c cs
    rw [← hthis] at hfront
    have hcancel : c :: front' ++ (token c cs).2 = front ++ (token c cs).2 :=
      (congrArg (c :: ·) hfront').trans hfront
    exact ⟨front', (List.append_cancel_right hcancel).symm, hfront'.symm⟩
  rcases h with ⟨front, hf, hcs, hread⟩ | ⟨front, hf, hcs, hne⟩
  · obtain ⟨front', rfl, he⟩ := htaken hcs
    rw [List.mem_cons, not_or] at hf
    refine .inl ⟨front', hf.2, he, fun es hes => ?_⟩
    rw [hr _ (hes.append he hf.2), ← List.cons_append, hread es (hthis ▸ hes), hthis]
  · obtain ⟨front', rfl, he⟩ := htaken hcs
    refine .inr ⟨front', (List.mem_cons.1 hf).resolve_left (Ne.symm hc), he, ?_⟩
    rwa [hr _ (.inr rfl), hthis, ← star_of_ne hc, ← starred_cons, star_of_ne hc]

/-- A reader that takes over behind the first character of the token. -/
theorem Tracks.of_eq {c : Char} {cs : List Char} {read : List Char → Token × List Char}
    (h : Tracks read cs) (hr : ∀ es, Alike cs es → token c es = read es) : Tracks (token c) cs :=
  h.map Function.injective_id hr

theorem delim_tracks (t : Token) {c : Char} {cs : List Char}
    (hr : ∀ es, Alike cs es → token c es = (t, es)) : Tracks (token c) cs :=
  .inl (.stay t hr)

theorem hash_tracks (cs : List Char) : Tracks (token '#') cs := by
  refine tracks_of_if startsName (fun es hes => hes.startsName_eq) (fun es _ => token_hash es)
    (fun _ hr => (name_tracks cs).map (fun _ _ h => Token.idHash.inj h) hr) fun _ hr => ?_
  exact tracks_of_if (·.head?.any fun d => d.isDigit || d == '-')
    (fun es hes => hes.head?_any_eq rfl) hr
    (fun _ hr => (name_tracks cs).map (fun _ _ h => Token.hash.inj h) hr)
    fun _ hr => delim_tracks (.delim '#') hr

theorem minus_tracks {cs : List Char} (h : (token '-' cs).1 ≠ .badUrl) : Tracks (token '-') cs := by
  by_cases hcdc : ∃ ds, cs = '-' :: '>' :: ds
  · obtain ⟨ds, rfl⟩ := hcdc
    exact .inl (.stop ['-', '>'] .cdc (by decide) fun es _ => rfl)
  have hread : ∀ es, Alike cs es → token '-' es =
      if startsDigits es then numeric ['-'] es
      else if startsName ('-' :: es) then identLike ('-' :: es) else (.delim '-', es) :=
    fun es hes => token_minus fun ds hds => by
      obtain ⟨fs, rfl, hfs⟩ := hes.of_cons (by decide) (by decide) hds
      obtain ⟨gs, rfl, -⟩ := hfs.of_cons (by decide) (by decide) rfl
      exact hcdc ⟨gs, rfl⟩
  refine tracks_of_if startsDigits (fun es hes => hes.startsDigits_eq) hread
    (fun _ hr => (numeric_tracks ['-'] cs).of_eq hr) fun _ hr => ?_
  have hname : ∀ es, Alike cs es → startsName ('-' :: es) = startsName ('-' :: cs) := fun es hes =>
    (hes.append (show '-' :: cs = ['-'] ++ cs from rfl) (by decide)).startsName_eq
  refine tracks_of_if (fun es => startsName ('-' :: es)) hname hr
    (fun he hr => tracks_of_whole (by decide) hr (identLike_tracks (he ▸ h)))
    fun _ hr => delim_tracks (.delim '-') hr

theorem slash_tracks {cs : List Char} (h : ∀ ds, cs ≠ '&' :: ds) : Tracks (token '/') cs := by
  by_cases hc : ∃ ds, cs = '*' :: ds
  · obtain ⟨ds, rfl⟩ := hc
    exact (comment_tracks ds).step ['*'] (fun _ _ h => Token.comment.inj h)
      (by decide) fun es _ => rfl
  · refine delim_tracks (.delim '/') fun es hes => token_slash fun ds hds => ?_
    rcases hes with rfl | rfl
    · exact hc ⟨ds, hds⟩
    · obtain ⟨c, fs, rfl, hstar, -⟩ := List.map_eq_cons_iff.1 hds
      by_cases ha : c = '&'
      · exact h fs (by rw [ha])
      · exact hc ⟨fs, by rw [← hstar, star_of_ne ha]⟩

theorem less_tracks (cs : List Char) : Tracks (token '<') cs := by
  by_cases h : ∃ ds, cs = '!' :: '-' :: '-' :: ds
  · obtain ⟨ds, rfl⟩ := h
    exact .inl (.stop ['!', '-', '-'] .cdo (by decide) fun es _ => rfl)
  · refine delim_tracks (.delim '<') fun es hes => token_less fun ds hds => ?_
    obtain ⟨fs, rfl, hfs⟩ := hes.of_cons (by decide) (by decide) hds
    obtain ⟨gs, rfl, hgs⟩ := hfs.of_cons (by decide) (by decide) rfl
    obtain ⟨ks, rfl, -⟩ := hgs.of_cons (by decide) (by decide) rfl
    exact h ⟨ks, rfl⟩

/-- **A token is the same with stars for the ampersands behind it, and another one
with a star in it.** -/
theorem token_tracks {c : Char} {cs : List Char} (hc : c ≠ '&')
    (hslash : c = '/' → ∀ ds, cs ≠ '&' :: ds) (hstring : (token c cs).1 ≠ .badString)
    (hurl : (token c cs).1 ≠ .badUrl) : Tracks (token c) cs := by
  cases hs : isSpace c with
  | true =>
    exact .inl ((span_clear (p := isSpace) rfl rfl cs).step []
      (fun blanks => .whitespace (c :: blanks)) (by simp) fun es _ => token_space hs es)
  | false =>
  cases hn : isNameStart c with
  | true =>
    refine tracks_of_whole hc (fun es _ => token_name hs hn es) (identLike_tracks ?_)
    rwa [token_name hs hn] at hurl
  | false =>
  cases hd : c.isDigit with
  | true => exact tracks_of_whole hc (fun es _ => token_digit hs hn hd es) (numeric_tracks [] (c :: cs))
  | false =>
  by_cases hsign : c ∈ signs
  · simp only [signs, List.mem_cons, List.not_mem_nil, or_false] at hsign
    rcases hsign with rfl | rfl | rfl | rfl | rfl | rfl | rfl | rfl | rfl | rfl | rfl | rfl | rfl |
      rfl | rfl | rfl | rfl | rfl | rfl | rfl | rfl | rfl | rfl | rfl
    · exact (string_tracks (show isQuote '"' = true by decide) hstring).of_eq fun es _ => rfl
    · exact (string_tracks (show isQuote '\'' = true by decide) hstring).of_eq fun es _ => rfl
    · exact hash_tracks cs
    · refine tracks_of_if startsName (fun es hes => hes.startsName_eq)
        (fun es _ => token_at es) (fun _ hr => ?_) fun _ hr => delim_tracks (.delim '@') hr
      exact (name_tracks cs).map (fun _ _ h => Token.atKeyword.inj h) hr
    · exact tracks_of_if startsLine (fun es hes => hes.startsLine_eq)
        (fun es _ => token_backslash es) (fun _ hr => delim_tracks (.delim '\\') hr)
        fun he hr => tracks_of_whole hc hr (identLike_tracks (he ▸ hurl))
    · exact tracks_of_if startsDigits (fun es hes => hes.startsDigits_eq)
        (fun es _ => token_plus es) (fun _ hr => (numeric_tracks ['+'] cs).of_eq hr)
        fun _ hr => delim_tracks (.delim '+') hr
    · exact tracks_of_if ((·.head?.any Char.isDigit)) (fun es hes => hes.head?_any_eq rfl)
        (fun es _ => token_point es) (fun _ hr => tracks_of_whole hc hr (numeric_tracks [] _))
        fun _ hr => delim_tracks (.delim '.') hr
    · exact minus_tracks hurl
    · exact slash_tracks (hslash rfl)
    · exact less_tracks cs
    · exact .inl (match?_clear '$' .suffixMatch cs)
    · exact .inl (match?_clear '*' .substringMatch cs)
    · exact .inl (match?_clear '^' .prefixMatch cs)
    · exact .inl (match?_clear '|' .dashMatch cs)
    · exact .inl (match?_clear '~' .includeMatch cs)
    · exact delim_tracks .colon fun es _ => rfl
    · exact delim_tracks .semicolon fun es _ => rfl
    · exact delim_tracks .comma fun es _ => rfl
    · exact delim_tracks .openParen fun es _ => rfl
    · exact delim_tracks .closeParen fun es _ => rfl
    · exact delim_tracks .openSquare fun es _ => rfl
    · exact delim_tracks .closeSquare fun es _ => rfl
    · exact delim_tracks .openCurly fun es _ => rfl
    · exact delim_tracks .closeCurly fun es _ => rfl
  · exact delim_tracks (.delim c) fun es _ => token_delim hs hn hd hsign es

/-! ## Delimiters -/

theorem identLike_ne_delim (cs : List Char) (d : Char) : (identLike cs).1 ≠ .delim d := by
  rcases identLike_token cs with ht | ht | ⟨-, ⟨v, ht⟩ | ht⟩ <;> simp [ht]

theorem numeric_ne_delim (sign cs : List Char) (d : Char) : (numeric sign cs).1 ≠ .delim d := by
  rw [numeric_eq, afterDigits.eq_def]
  split
  · simp
  · split <;> simp

theorem string_ne_delim (quote : Char) (cs : List Char) (d : Char) :
    (string quote cs).1 ≠ .delim d := by
  rcases string_token quote cs with ⟨v, ht⟩ | ht <;> simp [ht]

theorem match?_delim {c d : Char} {t : Token} {cs : List Char} (ht : t ≠ .delim d)
    (h : (match? c t cs).1 = .delim d) : d = c := by
  unfold match? at h
  split at h
  · exact absurd h ht
  · exact (Token.delim.inj h).symm

/-- A character that is a token by itself starts it. -/
theorem token_eq_delim {c d : Char} {cs : List Char} (h : (token c cs).1 = .delim d) : d = c := by
  unfold token at h
  split at h
  · cases h
  split at h
  · exact absurd h (identLike_ne_delim _ d)
  split at h
  · exact absurd h (numeric_ne_delim _ _ d)
  split at h
  case h_1 | h_2 => exact absurd h (string_ne_delim _ _ d)
  -- Every other sign is a delimiter by itself, or starts no delimiter.
  all_goals
    repeat' split at h
    all_goals first
      | exact (Token.delim.inj h).symm
      | exact match?_delim (by simp) h
      | exact absurd h (identLike_ne_delim _ d)
      | exact absurd h (numeric_ne_delim _ _ d)
      | cases h

/-! ## All tokens of a text -/

theorem tokens_cons (c : Char) (cs : List Char) :
    tokens (c :: cs) = (token c cs).1 :: tokens (token c cs).2 := by
  rw [tokens, lexemes, List.map_cons]
  rfl

theorem lexemes_cons {c : Char} {cs front : List Char} (h : cs = front ++ (token c cs).2) :
    lexemes (c :: cs) = ⟨(token c cs).1, c :: front⟩ :: lexemes (token c cs).2 := by
  have hlength : cs.length - (token c cs).2.length = front.length := by
    have := congrArg List.length h
    rw [List.length_append] at this
    omega
  have htake : cs.take (cs.length - (token c cs).2.length) = front := by
    rw [hlength, h, List.take_left]
  rw [lexemes]
  change (⟨_, c :: cs.take (cs.length - (token c cs).2.length)⟩ : Lexeme) :: _ = _
  rw [htake]

theorem pair_infix_cons {s t u : Token} {ts : List Token} :
    [s, t] <:+: u :: ts ↔ (u = s ∧ ts.head? = some t) ∨ [s, t] <:+: ts := by
  rw [List.infix_cons_iff, List.cons_prefix_cons, eq_comm]
  refine or_congr (and_congr_right fun _ => ?_) Iff.rfl
  cases ts <;> simp [eq_comm]

/-- A token more. -/
theorem elementsApart_cons {c : Char} {cs front : List Char} (h : cs = front ++ (token c cs).2) :
    ElementsApart (c :: cs) ↔
      ('&' ∈ c :: front → (token c cs).1 = .delim '&') ∧
      ¬ ((token c cs).1 = .delim '/' ∧ (tokens (token c cs).2).head? = some (.delim '&')) ∧
      ¬ ((token c cs).1 = .delim '&' ∧ (tokens (token c cs).2).head? = some (.delim '=')) ∧
      ElementsApart (token c cs).2 := by
  constructor
  · rintro ⟨halone, hslash, hequals⟩
    rw [lexemes_cons h, List.forall_mem_cons] at halone
    rw [tokens_cons, pair_infix_cons, not_or] at hslash hequals
    exact ⟨halone.1, hslash.1, hequals.1, halone.2, hslash.2, hequals.2⟩
  · rintro ⟨hfirst, hslash, hequals, hrest⟩
    refine ⟨?_, ?_, ?_⟩
    · rw [lexemes_cons h, List.forall_mem_cons]
      exact ⟨hfirst, hrest.alone⟩
    · rw [tokens_cons, pair_infix_cons, not_or]
      exact ⟨hslash, hrest.slash⟩
    · rw [tokens_cons, pair_infix_cons, not_or]
      exact ⟨hequals, hrest.equals⟩

theorem head?_tokens {d : Char} {cs : List Char} (h : (tokens cs).head? = some (.delim d)) :
    ∃ ds, cs = d :: ds := by
  cases cs with
  | nil => simp [tokens, lexemes] at h
  | cons c cs =>
    rw [tokens_cons, List.head?_cons, Option.some.injEq] at h
    exact ⟨cs, by rw [token_eq_delim h]⟩

theorem token_ampersand (cs : List Char) : token '&' cs = (.delim '&', cs) :=
  token_delim (by decide) (by decide) (by decide) (by decide) cs

/-- An ampersand that is a token. -/
theorem tokens_starred_ampersand {cs : List Char}
    (ih : tokens (starred cs) = (tokens cs).map Token.starred ↔ ElementsApart cs) :
    tokens (starred ('&' :: cs)) = (tokens ('&' :: cs)).map Token.starred ↔
      ElementsApart ('&' :: cs) := by
  have hread := token_ampersand cs
  rw [elementsApart_cons (show cs = [] ++ (token '&' cs).2 by rw [hread]; rfl), tokens_cons, hread]
  change tokens ('*' :: starred cs) = .delim '*' :: (tokens cs).map Token.starred ↔ _
  by_cases h : ∃ ds, cs = '=' :: ds
  · obtain ⟨ds, rfl⟩ := h
    have hequals : token '=' ds = (.delim '=', ds) :=
      token_delim (by decide) (by decide) (by decide) (by decide) ds
    have hhead : (tokens ('=' :: ds)).head? = some (.delim '=') := by
      rw [tokens_cons, hequals, List.head?_cons]
    have hstar : tokens ('*' :: starred ('=' :: ds)) = .substringMatch :: tokens (starred ds) :=
      tokens_cons _ _
    refine iff_of_false (fun he => ?_) fun ⟨_, _, hne, _⟩ => hne ⟨rfl, hhead⟩
    rw [hstar] at he
    cases (List.cons.inj he).1
  · have hstar : tokens ('*' :: starred cs) = .delim '*' :: tokens (starred cs) := by
      have hne : ∀ ds, starred cs ≠ '=' :: ds := fun ds hds => by
        have halike : Alike cs (starred cs) := .inr rfl
        obtain ⟨es, hes, -⟩ := halike.of_cons (by decide) (by decide) hds
        exact h ⟨es, hes⟩
      have hread : token '*' (starred cs) = (.delim '*', starred cs) :=
        match?_of_ne hne '*' .substringMatch
      rw [tokens_cons, hread]
    rw [hstar, List.cons_inj_right, ih]
    exact ⟨fun hcs => ⟨fun _ => rfl, by simp, fun he => h (head?_tokens he.2), hcs⟩, fun h => h.2.2.2⟩

/-- An ampersand behind a slash. -/
theorem tokens_starred_slash (ds : List Char) :
    tokens (starred ('/' :: '&' :: ds)) = (tokens ('/' :: '&' :: ds)).map Token.starred ↔
      ElementsApart ('/' :: '&' :: ds) := by
  have hread : token '/' ('&' :: ds) = (.delim '/', '&' :: ds) := token_slash fun es h => by cases h
  have hhead : (tokens ('&' :: ds)).head? = some (.delim '&') := by
    rw [tokens_cons, token_ampersand, List.head?_cons]
  rw [elementsApart_cons (show '&' :: ds = [] ++ (token '/' ('&' :: ds)).2 by rw [hread]; rfl),
    tokens_cons, hread]
  refine iff_of_false (fun he => ?_) fun ⟨_, hne, _⟩ => hne ⟨rfl, hhead⟩
  change tokens ('/' :: '*' :: starred ds) = _ at he
  rw [tokens_cons] at he
  cases (List.cons.inj he).1

/-- A slash that is a token is followed by what the text goes on with. -/
theorem token_slash_snd {cs : List Char} (h : (token '/' cs).1 = .delim '/') :
    (token '/' cs).2 = cs := by
  by_cases hc : ∃ ds, cs = '*' :: ds
  · obtain ⟨ds, rfl⟩ := hc
    cases h
  · rw [token_slash fun ds hds => hc ⟨ds, hds⟩]

theorem Token.starred_eq_self {t : Token} (h : t ≠ .delim '&') : t.starred = t := by
  unfold Token.starred
  split
  · rename_i c
    rw [star_of_ne fun hc => h (by rw [hc])]
  · rfl

/-- **Stars for the ampersands of a text are stars for its references to the
element exactly where these stand apart**: where no ampersand is part of another
token, and none stands behind a slash or in front of an equals sign. -/
theorem tokens_starred_iff {cs : List Char}
    (hgood : ∀ t ∈ tokens cs, t ≠ .badString ∧ t ≠ .badUrl) :
    tokens (starred cs) = (tokens cs).map Token.starred ↔ ElementsApart cs := by
  induction cs using lexemes.induct with
  | case1 =>
    have hnil : tokens [] = [] := by rw [tokens, lexemes, List.map_nil]
    exact iff_of_true (by rw [starred_nil, hnil, List.map_nil])
      ⟨by simp [lexemes], by simp [hnil], by simp [hnil]⟩
  | case2 c cs rest ih =>
    rw [tokens_cons, List.forall_mem_cons] at hgood
    obtain ⟨⟨hstring, hurl⟩, hgood⟩ := hgood
    have ih := ih hgood
    by_cases hc : c = '&'
    · subst hc
      refine tokens_starred_ampersand ?_
      rwa [show rest = cs from congrArg Prod.snd (token_ampersand cs)] at ih
    by_cases hslash : c = '/' ∧ ∃ ds, cs = '&' :: ds
    · obtain ⟨rfl, ds, rfl⟩ := hslash
      exact tokens_starred_slash ds
    have hne : (token c cs).1 ≠ .delim '&' := fun ht => hc (token_eq_delim ht).symm
    have htracks := token_tracks hc (fun hc ds hds => hslash ⟨hc, ds, hds⟩) hstring hurl
    rw [starred_cons, star_of_ne hc, tokens_cons, tokens_cons, List.map_cons,
      Token.starred_eq_self hne]
    rcases htracks with hclear | ⟨front, hf, hcs, hdiffers⟩
    · rw [hclear.starred_eq, List.cons_inj_right, ih]
      obtain ⟨front, hf, hcs, -⟩ := hclear
      rw [elementsApart_cons hcs]
      have hfront : '&' ∉ c :: front := List.not_mem_cons_of_ne_of_not_mem (Ne.symm hc) hf
      refine ⟨fun h => ⟨fun hm => absurd hm hfront, ?_, fun he => hne he.1, h⟩, fun h => h.2.2.2⟩
      rintro ⟨ht, hhead⟩
      obtain rfl := token_eq_delim ht
      obtain ⟨ds, hds⟩ := head?_tokens hhead
      rw [token_slash_snd ht] at hds
      exact hslash ⟨rfl, ds, hds⟩
    · rw [elementsApart_cons hcs]
      refine iff_of_false (fun he => hdiffers (List.cons.inj he).1) fun ⟨hfirst, _⟩ => ?_
      exact hne (hfirst (List.mem_cons_of_mem _ hf))

end VarLogic.Css
