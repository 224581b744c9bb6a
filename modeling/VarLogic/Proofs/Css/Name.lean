/-
Names and escapes in front of a bracket. No name goes on with one, so a name
takes a bracket only behind a backslash at the end of the text.
-/
import VarLogic.Css.Name
import VarLogic.Proofs.Css.Bracket

namespace VarLogic.Css

variable {P : Prop}

theorem startsLine_append (cs : List Char) {y : List Char} (hy : Bracketed y) :
    startsLine (cs ++ y) = startsLine cs := by
  rcases hy with rfl | ⟨d, z, rfl, hd⟩
  · rw [List.append_nil]
  · cases cs with
    | nil => exact (of_isBracket hd).2.1
    | cons c cs => rfl

theorem startsName_cons {c : Char} (hm : c ≠ '-') (hb : c ≠ '\\') (cs : List Char) :
    startsName (c :: cs) = isNameStart c := by
  unfold startsName
  split
  · rename_i h
    cases h
  · rename_i h
    exact absurd (List.cons.inj h).1 hm
  · rename_i h
    exact absurd (List.cons.inj h).1 hm
  · rename_i h
    exact absurd (List.cons.inj h).1 hb
  · rename_i h
    rw [(List.cons.inj h).1]

theorem startsName_append (cs : List Char) {y : List Char} (hy : Bracketed y) :
    startsName (cs ++ y) = startsName cs := by
  have hl := startsLine_append cs.tail hy
  rcases hy with rfl | ⟨d, z, rfl, hd⟩
  · rw [List.append_nil]
  have hs : isNameStart d = false := (of_isBracket hd).2.2.2.1
  have hm : d ≠ '-' := ne_of_isBracket hd (by decide)
  have hb : d ≠ '\\' := ne_of_isBracket hd (by decide)
  cases cs with
  | nil => exact (startsName_cons hm hb z).trans hs
  | cons c cs =>
    by_cases hcm : c = '-'
    · subst hcm
      cases cs with
      | nil => simp [startsName, hs, hm, hb]
      | cons e cs => rfl
    · by_cases hcb : c = '\\'
      · subst hcb
        exact congrArg Bool.not hl
      · rw [List.cons_append, startsName_cons hcm hcb, startsName_cons hcm hcb]

theorem hexRun_append (n acc : Nat) (cs : List Char) {y : List Char} (hy : Bracketed y) :
    hexRun n acc (cs ++ y) = ((hexRun n acc cs).1, (hexRun n acc cs).2 ++ y) := by
  induction n generalizing acc cs with
  | zero => rfl
  | succ n ih =>
    cases cs with
    | nil =>
      rcases hy with rfl | ⟨d, z, rfl, hd⟩
      · rfl
      · simp [hexRun, (of_isBracket hd).2.2.2.2.2]
    | cons c cs =>
      simp only [List.cons_append, hexRun]
      cases hexValue? c with
      | none => rfl
      | some v => exact ih _ cs

theorem dropBlank_append (cs : List Char) {y : List Char} (hy : Bracketed y) :
    dropBlank (cs ++ y) = dropBlank cs ++ y := by
  cases cs with
  | nil =>
    rcases hy with rfl | ⟨d, z, rfl, hd⟩
    · rfl
    · rw [List.nil_append, dropBlank.eq_2 _ _ fun _ h _ => ne_of_isBracket hd (by decide) h,
        (of_isBracket hd).1]
      rfl
  | cons c cs =>
    by_cases h : ∃ ds, c = '\r' ∧ cs = '\n' :: ds
    · obtain ⟨ds, rfl, rfl⟩ := h
      rfl
    · have hcs : ∀ ds, c = '\r' → cs = '\n' :: ds → False := fun ds hc hds => h ⟨ds, hc, hds⟩
      have hcy : ∀ ds, c = '\r' → cs ++ y = '\n' :: ds → False := fun ds hc hds => by
        obtain ⟨es, hes⟩ := hy.cons_of_append (by decide) hds
        exact hcs es hc hes
      rw [List.cons_append, dropBlank.eq_2 _ _ hcs, dropBlank.eq_2 _ _ hcy]
      split <;> rfl

theorem escape_append {cs : List Char} (hcs : cs ≠ []) {y : List Char} (hy : Bracketed y) :
    escape (cs ++ y) = ((escape cs).1, (escape cs).2 ++ y) := by
  cases cs with
  | nil => exact absurd rfl hcs
  | cons c cs =>
    cases hc : hexValue? c with
    | none =>
      simp only [List.cons_append, escape, hc]
      split <;> rfl
    | some v =>
      simp only [List.cons_append, escape, hc, hexRun_append 5 v cs hy]
      rw [dropBlank_append _ hy]

/-- A backslash takes the bracket behind it. -/
theorem escape_bracket {d : Char} (hd : isBracket d = true) (z : List Char) :
    escape (d :: z) = (d, z) := by
  simp [escape, (of_isBracket hd).2.2.2.2.2, ne_of_isBracket hd (by decide : isBracket '\x00' = false)]

theorem name_escape {cs : List Char} (h : startsLine cs = false) :
    name ('\\' :: cs) = ((escape cs).1 :: (name (escape cs).2).1, (name (escape cs).2).2) := by
  rw [name]
  simp [h]

theorem name_cons {c : Char} (hb : c ≠ '\\') (hn : isNameChar c = true) (cs : List Char) :
    name (c :: cs) = ((if c = '\x00' then replacement else c) :: (name cs).1, (name cs).2) := by
  rw [name]
  simp [hb, hn]

theorem name_stop {c : Char} (hb : c ≠ '\\') (hn : isNameChar c = false) (cs : List Char) :
    name (c :: cs) = ([], c :: cs) := by
  rw [name]
  simp [hb, hn]

theorem name_bracketed {y : List Char} (hy : Bracketed y) : name y = ([], y) := by
  rcases hy with rfl | ⟨d, z, rfl, hd⟩
  · rw [name]
  · exact name_stop (ne_of_isBracket hd (by decide)) (of_isBracket hd).2.2.1 z

theorem name_decided {cs : List Char} (hP : ['\\'] <:+ cs → P) : Decided P name cs := by
  induction cs using name.induct with
  | case1 => exact .stop [] [] fun y hy => name_bracketed hy
  | case2 cs hl =>
    refine .stop [] ('\\' :: cs) fun y hy => ?_
    rw [List.cons_append, name]
    simp [startsLine_append cs hy, hl]
  | case3 cs hl ih =>
    have hl : startsLine cs = false := by simpa using hl
    by_cases hcs : cs = []
    · subst hcs
      refine .inr ⟨⟨by rw [name_escape hl]; simp [escape, name], fun d z hd => ?_⟩,
        hP (List.suffix_refl _)⟩
      have hd' : startsLine (d :: z) = false := (of_isBracket hd).2.1
      rw [List.cons_append, List.nil_append, name_escape hd', escape_bracket hd]
      exact name_suffix z
    · refine (ih fun h => hP (h.trans ((escape_suffix cs).trans (List.suffix_cons _ _)))).step ((escape cs).1 :: ·) fun y hy => ?_
      rw [List.cons_append, name_escape (by rw [startsLine_append cs hy, hl]), escape_append hcs hy]
  | case4 c cs hb hn ih =>
    exact (ih fun h => hP (h.trans (List.suffix_cons _ _))).step (_ :: ·) fun y _ =>
      name_cons hb hn (cs ++ y)
  | case5 c cs hb hn => exact .stop [] (c :: cs) fun y _ => name_stop hb (by simpa using hn) (cs ++ y)

end VarLogic.Css
