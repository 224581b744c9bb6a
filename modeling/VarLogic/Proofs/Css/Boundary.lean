/-
Where a bracket behind a text falls among its lexemes. Either the text is
`Solid`, and its lexemes stand in front of those that follow, or its last token
is still open at its end and takes the bracket too (`Open`). There is no third
case (`solid_or_open`).
-/
import VarLogic.Proofs.Css.Ended

namespace VarLogic.Css

/-- The source text of lexemes. -/
def texts (ls : List Lexeme) : List Char := (ls.map Lexeme.text).flatten

@[simp] theorem texts_nil : texts [] = [] := rfl

@[simp] theorem texts_cons (l : Lexeme) (ls : List Lexeme) : texts (l :: ls) = l.text ++ texts ls := rfl

@[simp] theorem texts_append (ks ls : List Lexeme) : texts (ks ++ ls) = texts ks ++ texts ls := by
  simp [texts]

theorem texts_lexemes (x : List Char) : texts (lexemes x) = x := flatten_lexemes x

theorem lexemes_nil : lexemes [] = [] := by rw [lexemes]

/-- The token that a text starts with is its first lexeme. -/
theorem lexemes_of_token {c : Char} {cs y : List Char} {t : Token} (h : token c (cs ++ y) = (t, y)) :
    lexemes (c :: (cs ++ y)) = ⟨t, c :: cs⟩ :: lexemes y := by
  rw [lexemes]
  simp [h]

theorem lexemes_of_token_one {c : Char} {y : List Char} {t : Token} (h : token c y = (t, y)) :
    lexemes (c :: y) = ⟨t, [c]⟩ :: lexemes y := @lexemes_of_token c [] y t h

/-- The lexemes of the text stand, whatever bracket follows. -/
def Solid (x : List Char) : Prop := ∀ y, Bracketed y → lexemes (x ++ y) = lexemes x ++ lexemes y

/-- The last token of the text, which starts with `c`, goes on behind it. -/
structure Open (x : List Char) (front : List Lexeme) (c : Char) (cs : List Char) : Prop where
  runsOn : RunsOn (token c) cs
  cause : ['\\'] <:+ c :: cs ∨ Lexeme.IsCut ⟨(token c cs).1, c :: cs⟩
  whole : texts front ++ c :: cs = x
  lexemes_append : ∀ y, Bracketed y → lexemes (x ++ y) = front ++ lexemes (c :: (cs ++ y))

/-- **A text ends where its tokens do, or in the middle of the last one.** -/
theorem solid_or_open (x : List Char) : Solid x ∨ ∃ front c cs, Open x front c cs := by
  fun_induction lexemes x with
  | case1 => exact .inl fun y _ => by rw [lexemes_nil, List.nil_append, List.nil_append]
  | case2 c cs rest ih =>
    rcases token_decided c cs with hs | ⟨ho, hcause⟩
    · obtain ⟨read, hread⟩ := token_suffix c cs
      have hlex : ∀ y, Bracketed y →
          lexemes (c :: (cs ++ y)) = ⟨(token c cs).1, c :: read⟩ :: lexemes (rest ++ y) := fun y hy => by
        have ht : token c (read ++ (rest ++ y)) = ((token c cs).1, rest ++ y) := by
          rw [← List.append_assoc, hread]
          exact hs y hy
        rw [← lexemes_of_token ht, ← List.append_assoc, hread]
      have hnil : lexemes (c :: cs) = ⟨(token c cs).1, c :: read⟩ :: lexemes rest := by
        simpa using hlex [] (.inl rfl)
      rcases ih with ih | ⟨front, d, ds, ih⟩
      · refine .inl fun y hy => ?_
        rw [List.cons_append, hlex y hy, ih y hy, hnil, List.cons_append]
      · refine .inr ⟨⟨(token c cs).1, c :: read⟩ :: front, d, ds, ih.runsOn, ih.cause, ?_,
          fun y hy => ?_⟩
        · rw [texts_cons, List.append_assoc, ih.whole, List.cons_append, hread]
        · rw [List.cons_append, hlex y hy, ih.lexemes_append y hy, List.cons_append]
    · exact .inr ⟨[], c, cs, ho, hcause, rfl, fun y _ => rfl⟩

section
variable {x cs : List Char} {front : List Lexeme} {c : Char} (h : Open x front c cs)
include h

/-- The open token is the last one. -/
theorem Open.lexemes_eq : lexemes x = front ++ [⟨(token c cs).1, c :: cs⟩] := by
  have ht : token c (cs ++ []) = ((token c cs).1, []) := by
    rw [List.append_nil, ← h.runsOn.all]
  have hnil := h.lexemes_append [] (.inl rfl)
  rwa [List.append_nil, lexemes_of_token ht, lexemes_nil] at hnil

/-- With a bracket behind the text it is longer. -/
theorem Open.lexemes_bracket {d : Char} (hd : isBracket d = true) (z : List Char) :
    ∃ read rest, z = read ++ rest ∧ (token c (cs ++ d :: z)).2 = rest ∧
      lexemes (x ++ d :: z) =
        front ++ ⟨(token c (cs ++ d :: z)).1, c :: (cs ++ d :: read)⟩ :: lexemes rest := by
  obtain ⟨read, hread⟩ := h.runsOn.more d z hd
  refine ⟨read, _, hread.symm, rfl, ?_⟩
  have ht : token c ((cs ++ d :: read) ++ (token c (cs ++ d :: z)).2) =
      ((token c (cs ++ d :: z)).1, (token c (cs ++ d :: z)).2) := by
    rw [List.append_assoc, List.cons_append, hread]
  rw [h.lexemes_append _ (bracketed_cons hd z), ← lexemes_of_token ht, List.append_assoc,
    List.cons_append, hread]

end

/-! ## Splitting at a bracket -/

theorem text_ne_nil {x : List Char} : ∀ l ∈ lexemes x, l.text ≠ [] := by
  fun_induction lexemes x with
  | case1 => simp
  | case2 c cs rest ih => exact List.forall_mem_cons.2 ⟨by simp, ih⟩

/-- Lexemes with the same source text in front of the same ones are the same. -/
theorem eq_of_texts {ks ks' ls ls' : List Lexeme} (h : ks ++ ls = ks' ++ ls')
    (ht : texts ks = texts ks') (hne : ∀ l ∈ ks ++ ls, l.text ≠ []) : ks = ks' := by
  have hnil : ∀ as : List Lexeme, (∀ l ∈ as, l.text ≠ []) → texts as = [] → as = [] := fun as has h => by
    cases as with
    | nil => rfl
    | cons a as => exact absurd (List.append_eq_nil_iff.1 h).1 (has a (by simp))
  rcases List.append_eq_append_iff.1 h with ⟨as, rfl, rfl⟩ | ⟨as, rfl, rfl⟩
  · obtain rfl := hnil as (fun l hl => hne l (by simp [hl])) (by simpa using ht)
    exact (List.append_nil ks).symm
  · obtain rfl := hnil as (fun l hl => hne l (by simp [hl])) (by simpa using ht)
    exact List.append_nil ks'

/-- Where some lexemes have the source text in front of a bracket, they are the
lexemes of that text. -/
theorem solid_of_texts {x z : List Char} {d : Char} {ks ls : List Lexeme} (hd : isBracket d = true)
    (h : lexemes (x ++ d :: z) = ks ++ ls) (ht : texts ks = x) : Solid x ∧ ks = lexemes x := by
  rcases solid_or_open x with hs | ⟨front, c, cs, ho⟩
  · refine ⟨hs, (eq_of_texts ((hs _ (bracketed_cons hd z)).symm.trans h) ?_ ?_).symm⟩
    · rw [texts_lexemes, ht]
    · rw [← hs _ (bracketed_cons hd z)]
      exact text_ne_nil
  · exfalso
    obtain ⟨read, rest, -, -, hlex⟩ := ho.lexemes_bracket hd z
    have hwhole := congrArg List.length (ho.whole.trans ht.symm)
    rw [List.length_append, List.length_cons] at hwhole
    rcases List.append_eq_append_iff.1 (hlex.symm.trans h) with ⟨as, rfl, has⟩ | ⟨as, rfl, -⟩
    · cases as with
      | nil =>
        rw [List.append_nil] at hwhole
        omega
      | cons a as =>
        obtain ⟨rfl, -⟩ := List.cons.inj has
        simp only [texts_append, texts_cons, List.length_append, List.length_cons] at hwhole
        omega
    · rw [texts_append, List.length_append] at hwhole
      omega

/-- Nothing more than one brace has to be looked at. -/
theorem solid_iff {x : List Char} {d : Char} (hd : isBracket d = true) :
    Solid x ↔ lexemes (x ++ [d]) = lexemes x ++ lexemes [d] := by
  constructor
  · exact fun h => h _ (bracketed_cons hd [])
  · exact fun h => (solid_of_texts hd h (texts_lexemes x)).1

end VarLogic.Css
