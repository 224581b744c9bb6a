/-
Readers and stars for ampersands. Where a reader takes no ampersand of a text, it
takes and reads the same with stars for those behind (`Clear`). Where it takes
one, it reads something else with a star for it (`Differs`), whatever it takes
then. Names and numbers do the one or the other (`name_tracks`,
`numeric_tracks`).
-/
import Mathlib.Data.List.Basic
import VarLogic.Css.Starred
import VarLogic.Proofs.Css.Numeric

namespace VarLogic.Css

/-! ## Characters -/

theorem star_of_ne {c : Char} (h : c ≠ '&') : star c = c := if_neg h

/-- What does not tell a star from an ampersand. -/
theorem apply_star {α : Type} (p : Char → α) (h : p '*' = p '&') (c : Char) : p (star c) = p c := by
  unfold star
  split
  · rename_i hc
    rw [hc, h]
  · rfl

theorem star_eq_iff {c d : Char} (hs : d ≠ '*') (ha : d ≠ '&') : star c = d ↔ c = d := by
  unfold star
  split
  · rename_i hc
    subst hc
    exact ⟨fun h => absurd h.symm hs, fun h => absurd h.symm ha⟩
  · rfl

/-- A class without the ampersand. -/
theorem ampersand_ne {p : Char → Bool} (ha : p '&' = false) {c : Char} (h : p c = true) : '&' ≠ c := by
  rintro rfl
  rw [ha] at h
  cases h

/-! ## Texts -/

@[simp] theorem starred_nil : starred [] = [] := rfl

@[simp] theorem starred_cons (c : Char) (cs : List Char) :
    starred (c :: cs) = star c :: starred cs := rfl

theorem starred_append (cs ds : List Char) : starred (cs ++ ds) = starred cs ++ starred ds :=
  List.map_append

theorem starred_of_not_mem {cs : List Char} (h : '&' ∉ cs) : starred cs = cs := by
  have hsame : ∀ c ∈ cs, star c = id c := fun c hc => star_of_ne fun he => h (he ▸ hc)
  rw [starred, List.map_congr_left hsame, List.map_id]

/-- The same text, or the one with stars for its ampersands. -/
def Alike (cs ds : List Char) : Prop := ds = cs ∨ ds = starred cs

namespace Alike

variable {cs ds front : List Char}

theorem append {es : List Char} (h : Alike cs ds) (he : es = front ++ cs) (hf : '&' ∉ front) :
    Alike es (front ++ ds) := by
  subst he
  rcases h with rfl | rfl
  · exact .inl rfl
  · exact .inr (by rw [starred_append, starred_of_not_mem hf])

theorem of_append {es : List Char} (h : Alike (front ++ cs) es) (hf : '&' ∉ front) :
    ∃ ds, es = front ++ ds ∧ Alike cs ds := by
  rcases h with rfl | rfl
  · exact ⟨cs, rfl, .inl rfl⟩
  · exact ⟨starred cs, by rw [starred_append, starred_of_not_mem hf], .inr rfl⟩

/-- Like texts go on with the same character, but for a star and an ampersand. -/
theorem of_cons {d : Char} {es : List Char} (h : Alike cs ds) (hs : d ≠ '*') (ha : d ≠ '&')
    (hds : ds = d :: es) : ∃ fs, cs = d :: fs ∧ Alike fs es := by
  subst hds
  rcases h with rfl | h
  · exact ⟨es, rfl, .inl rfl⟩
  · obtain ⟨c, fs, rfl, hc, rfl⟩ := List.map_eq_cons_iff.1 h.symm
    exact ⟨fs, by rw [(star_eq_iff hs ha).1 hc], .inr rfl⟩

theorem eq_nil_iff (h : Alike cs ds) : ds = [] ↔ cs = [] := by
  rcases h with rfl | rfl
  · rfl
  · exact List.map_eq_nil_iff

theorem startsLine_eq (h : Alike cs ds) : startsLine ds = startsLine cs := by
  rcases h with rfl | rfl
  · rfl
  · cases cs with
    | nil => rfl
    | cons c cs => exact apply_star isNewline rfl c

theorem head?_any_eq {p : Char → Bool} (hp : p '*' = p '&') (h : Alike cs ds) :
    ds.head?.any p = cs.head?.any p := by
  rcases h with rfl | rfl
  · rfl
  · cases cs with
    | nil => rfl
    | cons c cs => exact apply_star p hp c

theorem startsName_eq (h : Alike cs ds) : startsName ds = startsName cs := by
  rcases h with rfl | rfl
  · rfl
  · cases cs with
    | nil => rfl
    | cons c cs =>
      by_cases hm : c = '-'
      · subst hm
        cases cs with
        | nil => rfl
        | cons d cs => exact apply_star (fun d => isNameStart d || d == '-' || d == '\\') rfl d
      · by_cases hb : c = '\\'
        · subst hb
          exact congrArg Bool.not (startsLine_eq (show Alike cs (starred cs) from .inr rfl))
        · rw [starred_cons, startsName_cons hm hb,
            startsName_cons (mt (star_eq_iff (by decide) (by decide)).1 hm)
              (mt (star_eq_iff (by decide) (by decide)).1 hb)]
          exact apply_star isNameStart rfl c

theorem startsDigits_eq (h : Alike cs ds) : startsDigits ds = startsDigits cs := by
  have hother : ∀ {c : Char} {cs : List Char}, c ≠ '.' → startsDigits (c :: cs) = c.isDigit :=
    fun {c cs} hc => by
      unfold startsDigits
      split <;> simp_all
  rcases h with rfl | rfl
  · rfl
  · cases cs with
    | nil => rfl
    | cons c cs =>
      by_cases hc : c = '.'
      · subst hc
        cases cs with
        | nil => rfl
        | cons d cs => exact apply_star Char.isDigit rfl d
      · rw [starred_cons, hother hc, hother (mt (star_eq_iff (by decide) (by decide)).1 hc)]
        exact apply_star Char.isDigit rfl c

end Alike

/-! ## Readers -/

section Readers

variable {β γ : Type} {read : List Char → β × List Char} {read' : List Char → γ × List Char}
  {cs ds front : List Char}

/-- The reader takes no ampersand, and the ampersands behind make no difference. -/
def Clear (read : List Char → β × List Char) (cs : List Char) : Prop :=
  ∃ front, '&' ∉ front ∧ cs = front ++ (read cs).2 ∧
    ∀ ds, Alike (read cs).2 ds → read (front ++ ds) = ((read cs).1, ds)

/-- The reader takes an ampersand, and reads something else with a star for it. -/
def Differs (read : List Char → β × List Char) (cs : List Char) : Prop :=
  ∃ front, '&' ∈ front ∧ cs = front ++ (read cs).2 ∧ (read (starred cs)).1 ≠ (read cs).1

/-- With stars for the ampersands, the reader reads the same if it takes none of
them, and only then. -/
def Tracks (read : List Char → β × List Char) (cs : List Char) : Prop :=
  Clear read cs ∨ Differs read cs

/-- A reader that takes nothing more, or leaves all as it is. -/
theorem Clear.stop (front : List Char) (b : β) (hf : '&' ∉ front)
    (hr : ∀ es, Alike ds es → read (front ++ es) = (b, es)) : Clear read (front ++ ds) := by
  have h := hr ds (.inl rfl)
  exact ⟨front, hf, by rw [h], fun es hes => by rw [h] at hes ⊢; exact hr es hes⟩

theorem Clear.stay (b : β) (hr : ∀ es, Alike ds es → read es = (b, es)) : Clear read ds :=
  .stop [] b (by simp) hr

/-- A reader that hands over to another one is clear if that one is. -/
theorem Clear.step (h : Clear read' ds) (front : List Char) (f : γ → β) (hf : '&' ∉ front)
    (hr : ∀ es, Alike ds es → read (front ++ es) = (f (read' es).1, (read' es).2)) :
    Clear read (front ++ ds) := by
  obtain ⟨front', hf', hds, hread⟩ := h
  have hthis := hr ds (.inl rfl)
  refine ⟨front ++ front', by simp [hf, hf'], by rw [hthis, List.append_assoc, ← hds], fun es hes => ?_⟩
  rw [hthis] at hes ⊢
  rw [List.append_assoc, hr _ (hes.append hds hf'), hread es hes]

theorem Clear.starred_eq (h : Clear read cs) :
    read (starred cs) = ((read cs).1, starred (read cs).2) := by
  obtain ⟨front, hf, hcs, hread⟩ := h
  have hstarred : starred cs = front ++ starred (read cs).2 := by
    conv_lhs => rw [hcs]
    rw [starred_append, starred_of_not_mem hf]
  rw [hstarred, hread _ (.inr rfl)]

/-- It differs if that one does, and if what it makes of it still tells. -/
theorem Differs.step (h : Differs read' ds) (front : List Char) {f : γ → β}
    (hinj : Function.Injective f) (hf : '&' ∉ front)
    (hr : ∀ es, Alike ds es → read (front ++ es) = (f (read' es).1, (read' es).2)) :
    Differs read (front ++ ds) := by
  obtain ⟨front', hf', hds, hne⟩ := h
  have hthis := hr ds (.inl rfl)
  refine ⟨front ++ front', by simp [hf'], by rw [hthis, List.append_assoc, ← hds], ?_⟩
  rw [starred_append, starred_of_not_mem hf, hr _ (.inr rfl), hthis]
  exact fun he => hne (hinj he)

theorem Tracks.step (h : Tracks read' ds) (front : List Char) {f : γ → β}
    (hinj : Function.Injective f) (hf : '&' ∉ front)
    (hr : ∀ es, Alike ds es → read (front ++ es) = (f (read' es).1, (read' es).2)) :
    Tracks read (front ++ ds) :=
  h.imp (·.step front f hf hr) (·.step front hinj hf hr)

theorem Tracks.map (h : Tracks read' ds) {f : γ → β} (hinj : Function.Injective f)
    (hr : ∀ es, Alike ds es → read es = (f (read' es).1, (read' es).2)) : Tracks read ds :=
  h.step [] hinj (by simp) hr

/-- A test on what follows, which does not tell a star from an ampersand, decides
between two readers. -/
theorem tracks_of_if {yes no : List Char → β × List Char} (test : List Char → Bool)
    (ht : ∀ es, Alike cs es → test es = test cs)
    (hr : ∀ es, Alike cs es → read es = if test es then yes es else no es)
    (hyes : read cs = yes cs → (∀ es, Alike cs es → read es = yes es) → Tracks read cs)
    (hno : read cs = no cs → (∀ es, Alike cs es → read es = no es) → Tracks read cs) :
    Tracks read cs := by
  cases htest : test cs with
  | true =>
    have hread : ∀ es, Alike cs es → read es = yes es := fun es hes => by
      rw [hr es hes, ht es hes, htest, if_pos rfl]
    exact hyes (hread cs (.inl rfl)) hread
  | false =>
    have hread : ∀ es, Alike cs es → read es = no es := fun es hes => by
      rw [hr es hes, ht es hes, htest, if_neg Bool.false_ne_true]
    exact hno (hread cs (.inl rfl)) hread

/-- Two readers, one behind the other. -/
theorem Clear.seq {δ : Type} (h : Clear read cs) (h' : Clear read' (read cs).2) (f : β → γ → δ) :
    Clear (fun cs => (f (read cs).1 (read' (read cs).2).1, (read' (read cs).2).2)) cs := by
  obtain ⟨front, hf, hcs, hread⟩ := h
  have hr : ∀ es, Alike (read cs).2 es →
      (f (read (front ++ es)).1 (read' (read (front ++ es)).2).1, (read' (read (front ++ es)).2).2) =
        (f (read cs).1 (read' es).1, (read' es).2) := fun es hes => by
    rw [hread es hes]
  have hstep : Clear (fun cs => (f (read cs).1 (read' (read cs).2).1, (read' (read cs).2).2))
      (front ++ (read cs).2) := h'.step front _ hf hr
  rwa [← hcs] at hstep

/-- A reader that goes by what another one has read in front of it. -/
theorem Clear.bind (h : Clear read cs) (next : β → List Char → γ × List Char)
    (h' : Tracks (next (read cs).1) (read cs).2) :
    Tracks (fun cs => next (read cs).1 (read cs).2) cs := by
  obtain ⟨front, hf, hcs, hread⟩ := h
  have hr : ∀ es, Alike (read cs).2 es →
      next (read (front ++ es)).1 (read (front ++ es)).2 = next (read cs).1 es := fun es hes => by
    rw [hread es hes]
  have hstep : Tracks (fun cs => next (read cs).1 (read cs).2) (front ++ (read cs).2) :=
    h'.step front Function.injective_id hf hr
  rwa [← hcs] at hstep

/-- A reader that takes an ampersand at once. -/
theorem Differs.of_mem (front : List Char) (hf : '&' ∈ front) (hsuffix : (read (front ++ ds)).2 <:+ ds)
    (hne : (read (starred (front ++ ds))).1 ≠ (read (front ++ ds)).1) :
    Differs read (front ++ ds) := by
  obtain ⟨more, hmore⟩ := hsuffix
  exact ⟨front ++ more, by simp [hf], by rw [List.append_assoc, hmore], hne⟩

/-- The characters of a class that has neither stars nor ampersands. -/
theorem span_clear {p : Char → Bool} (hs : p '*' = false) (ha : p '&' = false) (cs : List Char) :
    Clear (fun cs => (cs.takeWhile p, cs.dropWhile p)) cs := by
  induction cs with
  | nil => exact .stay [] fun es hes => by rcases hes with rfl | rfl <;> rfl
  | cons c cs ih =>
    cases hc : p c with
    | true =>
      exact ih.step [c] (c :: ·) (by simp [ampersand_ne ha hc]) fun es _ => by simp [hc]
    | false =>
      refine .stay [] fun es hes => ?_
      have hp : (p (star c)) = false := (apply_star p (hs.trans ha.symm) c).trans hc
      rcases hes with rfl | rfl <;> simp [hc, hp]

end Readers

/-! ## Names -/

theorem hexRun_clear (n acc : Nat) (cs : List Char) : Clear (hexRun n acc) cs := by
  induction n generalizing acc cs with
  | zero => exact .stay acc fun es _ => rfl
  | succ n ih =>
    cases cs with
    | nil => exact .stay acc fun es hes => by rcases hes with rfl | rfl <;> rfl
    | cons c cs =>
      cases hc : hexValue? c with
      | none =>
        refine .stay acc fun es hes => ?_
        have hstar : hexValue? (star c) = none := (apply_star hexValue? rfl c).trans hc
        rcases hes with rfl | rfl <;> simp [hexRun, hc, hstar]
      | some d =>
        have hne : '&' ≠ c := by
          rintro rfl
          cases hc
        exact (ih (acc * 16 + d) cs).step [c] id (by simp [hne]) fun es _ => by simp [hexRun, hc]

theorem dropBlank_of_not_isSpace {c : Char} (hs : isSpace c = false) (cs : List Char) :
    dropBlank (c :: cs) = c :: cs := by
  have hc : c ≠ '\r' := by
    rintro rfl
    cases hs
  rw [dropBlank.eq_2 c cs fun _ h _ => hc h, hs, if_neg Bool.false_ne_true]

theorem dropBlank_clear (cs : List Char) : Clear (fun cs => ((), dropBlank cs)) cs := by
  by_cases h : ∃ ds, cs = '\r' :: '\n' :: ds
  · obtain ⟨ds, rfl⟩ := h
    exact .stop ['\r', '\n'] () (by decide) fun es _ => rfl
  cases cs with
  | nil => exact .stay () fun es hes => by rcases hes with rfl | rfl <;> rfl
  | cons c cs =>
    cases hs : isSpace c with
    | true =>
      have hne : '&' ≠ c := ampersand_ne (p := isSpace) rfl hs
      refine .stop [c] () (by simp [hne]) fun es hes => ?_
      have hread : dropBlank (c :: es) = if isSpace c then es else c :: es :=
        dropBlank.eq_2 c es fun fs hc hfs => by
          obtain ⟨gs, hgs, -⟩ := hes.of_cons (by decide) (by decide) hfs
          exact h ⟨gs, by rw [hc, hgs]⟩
      rw [List.singleton_append, hread, hs, if_pos rfl]
    | false =>
      refine .stay () fun es hes => ?_
      rcases hes with rfl | rfl
      · rw [dropBlank_of_not_isSpace hs]
      · rw [starred_cons, dropBlank_of_not_isSpace ((apply_star isSpace rfl c).trans hs)]

/-- What follows a backslash is an ampersand, or what an escape takes has none. -/
theorem escape_clear (cs : List Char) : Clear escape cs ∨ ∃ ds, cs = '&' :: ds := by
  cases cs with
  | nil => exact .inl (.stay replacement fun es hes => by rcases hes with rfl | rfl <;> rfl)
  | cons c cs =>
    by_cases hc : c = '&'
    · exact .inr ⟨cs, by rw [hc]⟩
    · left
      have hne : '&' ∉ [c] := by simpa using fun h => hc h.symm
      cases hd : hexValue? c with
      | none =>
        refine .stop [c] (if c = '\x00' then replacement else c) hne fun es _ => ?_
        simp only [List.singleton_append, escape, hd]
        split <;> rfl
      | some d =>
        refine ((hexRun_clear 5 d cs).seq (dropBlank_clear _) fun n _ => charOfCode n).step [c] id
          hne fun es _ => ?_
        simp only [List.singleton_append, escape, hd, id]

theorem escape_ampersand (cs : List Char) : escape ('&' :: cs) = ('&', cs) := rfl

theorem escape_star (cs : List Char) : escape ('*' :: cs) = ('*', cs) := rfl

/-- **A name has the ampersands it takes**, and so it shows where one is a star. -/
theorem name_clear_or_differs (cs : List Char) :
    Clear name cs ∨ '&' ∈ (name cs).1 ∧ Differs name cs := by
  induction cs using name.induct with
  | case1 =>
    refine .inl (.stay [] fun es hes => ?_)
    obtain rfl : es = [] := hes.elim id id
    rw [name]
  | case2 cs hl =>
    refine .inl (.stay [] fun es hes => ?_)
    have hstop : ∀ ds, Alike cs ds → name ('\\' :: ds) = ([], '\\' :: ds) := fun ds hds => by
      rw [name, if_pos rfl, hds.startsLine_eq, if_pos hl]
    rcases hes with rfl | rfl
    · exact hstop cs (.inl rfl)
    · exact hstop (starred cs) (.inr rfl)
  | case3 cs hl ih =>
    have hl : startsLine cs = false := by simpa using hl
    rcases escape_clear cs with ⟨front, hf, hcs, hread⟩ | ⟨ds, rfl⟩
    · have hf' : '&' ∉ '\\' :: front := by simpa using hf
      have hr : ∀ es, Alike (escape cs).2 es → name ('\\' :: front ++ es) =
          ((escape cs).1 :: (name es).1, (name es).2) := fun es hes => by
        rw [List.cons_append, name_escape ((hes.append hcs hf).startsLine_eq.trans hl), hread es hes]
      have hthis := hr (escape cs).2 (.inl rfl)
      have he : '\\' :: cs = '\\' :: front ++ (escape cs).2 := congrArg ('\\' :: ·) hcs
      rw [he]
      rcases ih with h | ⟨hm, h⟩
      · exact .inl (h.step _ _ hf' hr)
      · refine .inr ⟨?_, h.step _ List.cons_injective hf' hr⟩
        rw [hthis]
        exact List.mem_cons_of_mem _ hm
    · refine .inr ⟨by rw [name_escape hl, escape_ampersand]; simp, ?_⟩
      refine .of_mem ['\\', '&'] (by simp) ?_ ?_
      · change (name ('\\' :: '&' :: ds)).2 <:+ ds
        rw [name_escape hl, escape_ampersand]
        exact name_suffix ds
      · change (name ('\\' :: '*' :: starred ds)).1 ≠ (name ('\\' :: '&' :: ds)).1
        rw [name_escape rfl, name_escape hl, escape_ampersand, escape_star]
        simp
  | case4 c cs hb hn ih =>
    have hne : '&' ∉ [c] := by simp [ampersand_ne (p := isNameChar) rfl hn]
    have hr : ∀ es, Alike cs es → name ([c] ++ es) = _ := fun es _ => name_cons hb hn es
    have hthis := hr cs (.inl rfl)
    rcases ih with h | ⟨hm, h⟩
    · exact .inl (h.step _ _ hne hr)
    · refine .inr ⟨?_, h.step _ List.cons_injective hne hr⟩
      rw [← List.singleton_append, hthis]
      exact List.mem_cons_of_mem _ hm
  | case5 c cs hb hn =>
    have hn : isNameChar c = false := by simpa using hn
    refine .inl (.stay [] fun es hes => ?_)
    rcases hes with rfl | rfl
    · exact name_stop hb hn cs
    · exact name_stop (mt (star_eq_iff (by decide) (by decide)).1 hb)
        ((apply_star isNameChar rfl c).trans hn) _

theorem name_tracks (cs : List Char) : Tracks name cs :=
  (name_clear_or_differs cs).imp_right And.right

/-! ## Numbers -/

/-- The digits at the front of a text. -/
theorem digits_clear (cs : List Char) :
    Clear (fun cs => (cs.takeWhile Char.isDigit, cs.dropWhile Char.isDigit)) cs :=
  span_clear (by decide) (by decide) cs

theorem fraction_clear (cs : List Char) : Clear fraction cs := by
  by_cases h : ∃ d ds, cs = '.' :: d :: ds ∧ d.isDigit = true
  · obtain ⟨d, ds, rfl, hd⟩ := h
    have hf : '&' ∉ ['.', d] := by simp [ampersand_ne (p := Char.isDigit) rfl hd]
    exact (digits_clear ds).step ['.', d] (['.', d] ++ ·) hf fun es _ => by
      simp [fraction, hd]
  · refine .stay [] fun es hes => fraction_of_ne fun d ds he => Bool.eq_false_iff.2 fun hd => ?_
    obtain ⟨fs, rfl, hfs⟩ := hes.of_cons (by decide) (by decide) he
    have hhead := hfs.head?_any_eq (p := Char.isDigit) (by decide)
    cases fs with
    | nil => simp [hd] at hhead
    | cons f fs => exact h ⟨f, fs, rfl, by simpa [hd] using hhead.symm⟩

theorem exponent_clear (cs : List Char) : Clear exponent cs := by
  have hdigit : ∀ c, (star c).isDigit = c.isDigit := apply_star Char.isDigit rfl
  have hletter : ∀ c, (star c = 'e' ∨ star c = 'E') ↔ (c = 'e' ∨ c = 'E') := fun c =>
    or_congr (star_eq_iff (by decide) (by decide)) (star_eq_iff (by decide) (by decide))
  have hsign : ∀ c, (star c = '+' ∨ star c = '-') ↔ (c = '+' ∨ c = '-') := fun c =>
    or_congr (star_eq_iff (by decide) (by decide)) (star_eq_iff (by decide) (by decide))
  cases cs with
  | nil => exact .stay [] fun es hes => by rcases hes with rfl | rfl <;> rfl
  | cons e cs =>
    by_cases he : e = 'e' ∨ e = 'E'
    · have hne : '&' ≠ e := by rcases he with rfl | rfl <;> decide
      cases cs with
      | nil => exact .stay [] fun es hes => by rcases hes with rfl | rfl <;> simp [exponent]
      | cons s cs =>
        by_cases hs : s.isDigit = true
        · have hf : '&' ∉ [e, s] := by simp [hne, ampersand_ne (p := Char.isDigit) rfl hs]
          exact (digits_clear cs).step [e, s] ([e, s] ++ ·) hf fun es _ => by
            simp [exponent, he, hs]
        · by_cases hs' : s = '+' ∨ s = '-'
          · cases cs with
            | nil =>
              exact .stay [] fun es hes => by
                rcases hes with rfl | rfl <;> simp [exponent, hletter, hsign, hdigit, he, hs, hs']
            | cons d cs =>
              by_cases hd : d.isDigit = true
              · have hf : '&' ∉ [e, s, d] := by
                  have : '&' ≠ s := by rcases hs' with rfl | rfl <;> decide
                  simp [hne, this, ampersand_ne (p := Char.isDigit) rfl hd]
                exact (digits_clear cs).step [e, s, d] ([e, s, d] ++ ·) hf fun es _ => by
                  simp [exponent, he, hs, hs', hd]
              · exact .stay [] fun es hes => by
                  rcases hes with rfl | rfl <;> simp [exponent, hletter, hsign, hdigit, he, hs, hs', hd]
          · exact .stay [] fun es hes => by
              rcases hes with rfl | rfl <;> simp [exponent, hletter, hsign, hdigit, he, hs, hs']
    · exact .stay [] fun es hes => by
        rcases hes with rfl | rfl <;> simp [exponent, hletter, he]

theorem afterDigits_tracks (text cs : List Char) : Tracks (afterDigits text) cs := by
  by_cases h : ∃ ds, cs = '%' :: ds
  · obtain ⟨ds, rfl⟩ := h
    exact .inl (.stop ['%'] (.percentage text) (by decide) fun es _ => rfl)
  have hread : ∀ es, Alike cs es → afterDigits text es =
      if startsName es then (.dimension text (name es).1, (name es).2) else (.number text, es) :=
    fun es hes => afterDigits_of_ne fun ds he => by
      obtain ⟨fs, hfs, -⟩ := hes.of_cons (by decide) (by decide) he
      exact h ⟨fs, hfs⟩
  have hinj : Function.Injective (Token.dimension text) := fun _ _ h => (Token.dimension.inj h).2
  exact tracks_of_if startsName (fun es hes => hes.startsName_eq) hread
    (fun _ hr => (name_tracks cs).map hinj hr)
    fun _ hr => .inl (.stay (.number text) hr)

/-- The digits of a number, with its fraction and its exponent. -/
theorem number_clear (sign cs : List Char) :
    Clear (fun cs => (numberText sign cs, numberRest cs)) cs :=
  ((digits_clear cs).seq (fraction_clear _) (sign ++ · ++ ·)).seq (exponent_clear _) (· ++ ·)

theorem numeric_tracks (sign cs : List Char) : Tracks (numeric sign) cs := by
  change Tracks (fun cs => afterDigits (numberText sign cs) (numberRest cs)) cs
  exact (number_clear sign cs).bind afterDigits (afterDigits_tracks _ _)

end VarLogic.Css
