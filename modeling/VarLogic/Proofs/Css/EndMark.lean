/-
What stands in front of an end mark. In a string that is its quote, in a url a
parenthesis; neither counts behind a backslash. A text that may stand there
(`Inside`) determines where the end mark is (`Inside.append_iff`).
-/
import VarLogic.Proofs.Css.Name

namespace VarLogic.Css

/-- An end mark cannot be part of an escape, but for being the character that
is escaped. -/
def IsMark (stop : Char) : Prop := hexValue? stop = none ∧ isSpace stop = false ∧ stop ≠ '\\'

/-- A text in front of the end mark `stop`: every backslash has its character,
and `stop` stands only behind one. -/
inductive Inside (stop : Char) : List Char → Prop where
  | nil : Inside stop []
  | plain {c : Char} {cs : List Char} : c ≠ '\\' → c ≠ stop → Inside stop cs → Inside stop (c :: cs)
  | escaped {c : Char} {cs : List Char} : Inside stop cs → Inside stop ('\\' :: c :: cs)

/-- The text reaches its end mark, and `rest` follows. -/
def Reaches (stop : Char) (cs rest : List Char) : Prop :=
  ∃ body, Inside stop body ∧ cs = body ++ stop :: rest

/-- The text ends before its end mark comes. -/
def Unended (stop : Char) (cs : List Char) : Prop :=
  ∃ body, Inside stop body ∧ (cs = body ∨ cs = body ++ ['\\'])

section
variable {stop : Char}

theorem inside_cons {c : Char} (hb : c ≠ '\\') (hs : c ≠ stop) (cs : List Char) :
    Inside stop (c :: cs) ↔ Inside stop cs :=
  ⟨fun h => by cases h with
    | plain _ _ h => exact h
    | escaped h => exact absurd rfl hb, .plain hb hs⟩

theorem inside_escaped {c : Char} {cs : List Char} : Inside stop ('\\' :: c :: cs) ↔ Inside stop cs :=
  ⟨fun h => by cases h with
    | plain hb _ _ => exact absurd rfl hb
    | escaped h => exact h, .escaped⟩

theorem inside_append {cs : List Char} (hcs : ∀ c ∈ cs, c ≠ '\\' ∧ c ≠ stop) (ds : List Char) :
    Inside stop (cs ++ ds) ↔ Inside stop ds := by
  induction cs with
  | nil => rfl
  | cons c cs ih =>
    obtain ⟨hb, hs⟩ := hcs c (by simp)
    rw [List.cons_append, inside_cons hb hs, ih fun d hd => hcs d (by simp [hd])]

theorem Inside.append_iff {cs : List Char} (h : Inside stop cs) (ds : List Char) :
    Inside stop (cs ++ ds) ↔ Inside stop ds := by
  induction h with
  | nil => rfl
  | plain hb hs _ ih => rw [List.cons_append, inside_cons hb hs, ih]
  | escaped _ ih => rw [List.cons_append, List.cons_append, inside_escaped, ih]

theorem not_inside_stop (hs : stop ≠ '\\') (cs : List Char) : ¬ Inside stop (stop :: cs) := by
  intro h
  cases h with
  | plain _ h _ => exact h rfl
  | escaped _ => exact hs rfl

theorem Reaches.append {cs ds rest : List Char} (h : Inside stop cs) :
    Reaches stop ds rest → Reaches stop (cs ++ ds) rest := by
  rintro ⟨body, hbody, rfl⟩
  exact ⟨cs ++ body, (h.append_iff body).2 hbody, (List.append_assoc ..).symm⟩

theorem Unended.append {cs ds : List Char} (h : Inside stop cs) :
    Unended stop ds → Unended stop (cs ++ ds) := by
  rintro ⟨body, hbody, he⟩
  refine ⟨cs ++ body, (h.append_iff body).2 hbody, he.imp ?_ ?_⟩ <;> rintro rfl
  · rfl
  · exact (List.append_assoc ..).symm

theorem Reaches.cons {c : Char} {cs rest : List Char} (hb : c ≠ '\\') (hs : c ≠ stop)
    (h : Reaches stop cs rest) : Reaches stop (c :: cs) rest := h.append (.plain hb hs .nil)

theorem Unended.cons {c : Char} {cs : List Char} (hb : c ≠ '\\') (hs : c ≠ stop)
    (h : Unended stop cs) : Unended stop (c :: cs) := h.append (.plain hb hs .nil)

/-- A text that reaches its end mark does not end before it. -/
theorem Reaches.not_unended (hs : stop ≠ '\\') {cs rest : List Char} (h : Reaches stop cs rest) :
    ¬ Unended stop cs := by
  obtain ⟨body, h, rfl⟩ := h
  rintro ⟨all, hall, he | he⟩
  · rw [← he, h.append_iff] at hall
    exact not_inside_stop hs rest hall
  · rcases List.eq_nil_or_concat rest with rfl | ⟨rest', c, rfl⟩
    · exact hs (by simpa using congrArg List.getLast? he)
    · rw [List.concat_eq_append, ← List.cons_append, ← List.append_assoc] at he
      rw [← (List.append_inj' he rfl).1, h.append_iff] at hall
      exact not_inside_stop hs rest' hall

/-- Behind a part of a text that may stand before the end mark, `stop` follows
only a backslash. -/
theorem Inside.backslash_of_append (hs : stop ≠ '\\') {text cs ds : List Char} (h : Inside stop text)
    (he : text = cs ++ stop :: ds) : ['\\'] <:+ cs := by
  induction h generalizing cs with
  | nil => simp at he
  | @plain c text hb hc h ih =>
    cases cs with
    | nil => exact absurd (List.cons.inj he).1 hc
    | cons d cs => exact (ih (List.cons.inj he).2).trans (List.suffix_cons _ _)
  | @escaped c text h ih =>
    cases cs with
    | nil => exact absurd (List.cons.inj he).1.symm hs
    | cons d cs =>
      simp only [List.cons_append, List.cons.injEq] at he
      obtain ⟨rfl, he⟩ := he
      cases cs with
      | nil => exact List.suffix_refl _
      | cons e cs =>
        simp only [List.cons_append, List.cons.injEq] at he
        exact (ih he.2).trans ((List.suffix_cons _ _).trans (List.suffix_cons _ _))

/-! ## Lexemes -/

/-- Starts and ends a string. -/
def isQuote (c : Char) : Bool := c == '"' || c == '\''

/-- A comment, a string and a url have an end mark of their own. -/
def Lexeme.IsEnded (l : Lexeme) : Prop :=
  match l.token with
  | .comment _ => ∃ body, l.text = '/' :: '*' :: body ++ ['*', '/']
  | .string _ => ∃ quote body, l.text = quote :: body ++ [quote] ∧ Inside quote body
  | .url _ => ∃ body, l.text = body ++ [')'] ∧ Inside ')' body
  | .badString | .badUrl => False
  | _ => True

/-- The end mark is missing where there should be one. -/
def Lexeme.IsCut (l : Lexeme) : Prop :=
  match l.token with
  | .comment _ => ∃ body, l.text = '/' :: '*' :: body ∧ ¬ ['*', '/'] <:+ body
  | .string _ => ∃ quote body, isQuote quote = true ∧ l.text = quote :: body ∧ Unended quote body
  | .url _ => Unended ')' l.text
  | .badString | .badUrl => True
  | _ => False

theorem Lexeme.IsEnded.not_isCut {l : Lexeme} (h : l.IsEnded) : ¬ l.IsCut := by
  obtain ⟨t, text⟩ := l
  intro hc
  cases t with
  | comment _ =>
    obtain ⟨body, he⟩ := h
    obtain ⟨body', he', hcut⟩ := hc
    have hboth : '/' :: '*' :: (body ++ ['*', '/']) = '/' :: '*' :: body' := he.symm.trans he'
    obtain rfl := (List.cons.inj (List.cons.inj hboth).2).2
    exact hcut (List.suffix_append body _)
  | string _ =>
    obtain ⟨quote, body, he, hbody⟩ := h
    obtain ⟨quote', body', hq, he', hcut⟩ := hc
    have hboth : quote :: (body ++ [quote]) = quote' :: body' := he.symm.trans he'
    obtain ⟨rfl, rfl⟩ := List.cons.inj hboth
    have hs : quote ≠ '\\' := by
      rintro rfl
      cases hq
    exact Reaches.not_unended hs ⟨body, hbody, rfl⟩ hcut
  | url _ =>
    obtain ⟨body, he, hbody⟩ := h
    exact Reaches.not_unended (by decide) ⟨body, hbody, he⟩ hc
  | badString => exact h
  | badUrl => exact h
  | _ => exact hc

/-! ## Escapes and names -/

theorem hexRun_reads (n acc : Nat) (cs : List Char) :
    ∃ digits, cs = digits ++ (hexRun n acc cs).2 ∧ ∀ d ∈ digits, (hexValue? d).isSome := by
  induction n generalizing acc cs with
  | zero => exact ⟨[], rfl, by simp⟩
  | succ n ih =>
    cases cs with
    | nil => exact ⟨[], rfl, by simp⟩
    | cons c cs =>
      cases hc : hexValue? c with
      | none => exact ⟨[], by simp [hexRun, hc], by simp⟩
      | some v =>
        obtain ⟨digits, he, hd⟩ := ih (acc * 16 + v) cs
        refine ⟨c :: digits, ?_, by simpa [hc] using hd⟩
        simp only [hexRun, hc, List.cons_append, ← he]

theorem dropBlank_reads (cs : List Char) :
    ∃ blank, cs = blank ++ dropBlank cs ∧ ∀ d ∈ blank, isSpace d = true := by
  unfold dropBlank
  split
  · rename_i cs
    exact ⟨['\r', '\n'], rfl, by simp [isSpace, isNewline]⟩
  · rename_i c cs _
    split
    · rename_i hc
      exact ⟨[c], rfl, by simpa using hc⟩
    · exact ⟨[], rfl, by simp⟩
  · exact ⟨[], rfl, by simp⟩

/-- Behind the character that is escaped an escape takes digits and blanks. -/
theorem escape_reads {cs : List Char} (hcs : cs ≠ []) :
    ∃ c more, cs = c :: (more ++ (escape cs).2) ∧
      ∀ d ∈ more, (hexValue? d).isSome ∨ isSpace d = true := by
  cases cs with
  | nil => exact absurd rfl hcs
  | cons c cs =>
    cases hc : hexValue? c with
    | none =>
      refine ⟨c, [], ?_, by simp⟩
      simp only [escape, hc]
      split <;> rfl
    | some v =>
      obtain ⟨digits, he, hd⟩ := hexRun_reads 5 v cs
      obtain ⟨blank, he', hb⟩ := dropBlank_reads (hexRun 5 v cs).2
      refine ⟨c, digits ++ blank, ?_, fun d h => ?_⟩
      · simp only [escape, hc, List.append_assoc]
        rw [← he', ← he]
      · rcases List.mem_append.1 h with h | h
        · exact .inl (hd d h)
        · exact .inr (hb d h)

theorem IsMark.ne {d : Char} (hm : IsMark stop) (h : (hexValue? d).isSome ∨ isSpace d = true) :
    d ≠ '\\' ∧ d ≠ stop := by
  refine ⟨?_, ?_⟩ <;> rintro rfl
  · exact absurd h (by decide)
  · simp [hm.1, hm.2.1] at h

/-- An escape stands before any end mark. -/
theorem escape_inside (hm : IsMark stop) {cs : List Char} (hcs : cs ≠ []) :
    ∃ front, Inside stop front ∧ '\\' :: cs = front ++ (escape cs).2 := by
  obtain ⟨c, more, he, hmore⟩ := escape_reads hcs
  have hinside : Inside stop more := by
    simpa using (inside_append (fun d hd => hm.ne (hmore d hd)) []).2 .nil
  refine ⟨'\\' :: c :: more, .escaped hinside, ?_⟩
  rw [List.cons_append, List.cons_append, ← he]

/-- So does a name, if it ends before the text does. -/
theorem name_inside (hm : IsMark stop) (hn : isNameChar stop = false) {cs : List Char}
    (h : (name cs).2 ≠ []) : ∃ front, Inside stop front ∧ cs = front ++ (name cs).2 := by
  fun_induction name cs with
  | case1 => exact absurd rfl h
  | case2 cs _ => exact ⟨[], .nil, rfl⟩
  | case3 cs hl more ih =>
    have hcs : cs ≠ [] := fun hcs => h (by simp [more, hcs, escape, name])
    obtain ⟨front, hfront, he⟩ := escape_inside hm hcs
    obtain ⟨front', hfront', he'⟩ := ih h
    refine ⟨front ++ front', (hfront.append_iff _).2 hfront', ?_⟩
    rw [he, List.append_assoc, ← he']
  | case4 c cs hb hc more ih =>
    obtain ⟨front, hfront, he⟩ := ih h
    have hs : c ≠ stop := fun hs => by rw [hs, hn] at hc; cases hc
    exact ⟨c :: front, .plain hb hs hfront, by rw [List.cons_append, ← he]⟩
  | case5 c cs _ _ => exact ⟨[], .nil, rfl⟩

end

end VarLogic.Css
