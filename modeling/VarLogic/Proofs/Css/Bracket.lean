/-
What a bracket behind a text does to a reader. Either the reader leaves it
alone, and reads what it reads without it (`Settles`), or it was still in the
middle of something when the text ended, and takes the bracket too (`RunsOn`).
Which of the two it is does not depend on the bracket, nor on what follows it
(`Decided`).
-/
import VarLogic.Css.Token

namespace VarLogic.Css

/-! ## Brackets -/

/-- A brace, or a closing bracket. -/
def isBracket (c : Char) : Bool := c == '{' || c == '}' || c == ')' || c == ']'

theorem isBracket_iff {c : Char} : isBracket c = true ↔ c = '{' ∨ c = '}' ∨ c = ')' ∨ c = ']' := by
  simp [isBracket, or_assoc]

/-- What a bracket is not. -/
theorem of_isBracket {c : Char} (h : isBracket c = true) :
    isSpace c = false ∧ isNewline c = false ∧ isNameChar c = false ∧ isNameStart c = false ∧
      c.isDigit = false ∧ hexValue? c = none := by
  rcases isBracket_iff.1 h with rfl | rfl | rfl | rfl <;> decide

theorem ne_of_isBracket {c d : Char} (hc : isBracket c = true) (hd : isBracket d = false) : c ≠ d :=
  fun h => by rw [h, hd] at hc; cases hc

/-- Nothing, or a text that starts with a bracket. -/
def Bracketed (y : List Char) : Prop := y = [] ∨ ∃ d z, y = d :: z ∧ isBracket d = true

theorem bracketed_cons {d : Char} (hd : isBracket d = true) (z : List Char) : Bracketed (d :: z) :=
  .inr ⟨d, z, rfl, hd⟩

/-- The text does not go on with a character that no bracket is. -/
theorem Bracketed.cons_of_append {y cs ds : List Char} {c : Char} (hy : Bracketed y)
    (hc : isBracket c = false) (h : cs ++ y = c :: ds) : ∃ es, cs = c :: es := by
  cases cs with
  | nil =>
    rcases hy with rfl | ⟨d, z, rfl, hd⟩
    · cases h
    · exact absurd (List.cons.inj h).1 (ne_of_isBracket hd hc)
  | cons e es => exact ⟨es, by rw [(List.cons.inj h).1]⟩

/-- Nor with several of them. -/
theorem Bracketed.of_append_eq_append {y : List Char} (hy : Bracketed y) {p cs ds : List Char}
    (hp : p.any isBracket = false) (h : cs ++ y = p ++ ds) : ∃ es, cs = p ++ es := by
  induction p generalizing cs with
  | nil => exact ⟨cs, rfl⟩
  | cons c p ih =>
    rw [List.any_cons, Bool.or_eq_false_iff] at hp
    obtain ⟨es, rfl⟩ := hy.cons_of_append hp.1 h
    obtain ⟨fs, rfl⟩ := ih hp.2 (List.cons.inj h).2
    exact ⟨fs, rfl⟩

theorem dropWhile_append {p : Char → Bool} (hp : ∀ d, isBracket d = true → p d = false)
    (cs : List Char) {y : List Char} (hy : Bracketed y) :
    (cs ++ y).dropWhile p = cs.dropWhile p ++ y := by
  rw [List.dropWhile_append]
  split
  · rename_i he
    rw [List.isEmpty_iff] at he
    rw [he, List.nil_append]
    rcases hy with rfl | ⟨d, z, rfl, hd⟩
    · rfl
    · rw [List.dropWhile_cons_of_neg (by simp [hp d hd])]
  · rfl

theorem takeWhile_append {p : Char → Bool} (hp : ∀ d, isBracket d = true → p d = false)
    (cs : List Char) {y : List Char} (hy : Bracketed y) :
    (cs ++ y).takeWhile p = cs.takeWhile p := by
  induction cs with
  | nil =>
    rcases hy with rfl | ⟨d, z, rfl, hd⟩
    · rfl
    · simp [hp d hd]
  | cons c cs ih =>
    rw [List.cons_append, List.takeWhile_cons, List.takeWhile_cons, ih]

theorem not_isDigit {d : Char} (hd : isBracket d = true) : d.isDigit = false :=
  (of_isBracket hd).2.2.2.2.1

/-! ## Readers -/

variable {β γ : Type} {read : List Char → β × List Char} {cs : List Char} {P : Prop}

/-- The reader leaves a bracket behind the text alone. -/
def Settles (read : List Char → β × List Char) (cs : List Char) : Prop :=
  ∀ y, Bracketed y → read (cs ++ y) = ((read cs).1, (read cs).2 ++ y)

/-- The reader takes the whole text, and a bracket behind it. -/
structure RunsOn (read : List Char → β × List Char) (cs : List Char) : Prop where
  all : (read cs).2 = []
  more : ∀ d z, isBracket d = true → (read (cs ++ d :: z)).2 <:+ z

/-- Whether the reader takes a bracket does not depend on what follows it, and
it takes one only for the cause `P`. -/
def Decided (P : Prop) (read : List Char → β × List Char) (cs : List Char) : Prop :=
  Settles read cs ∨ (RunsOn read cs ∧ P)

/-- A reader that hands over to another one is decided as that one is. -/
theorem Decided.step {read' : List Char → γ × List Char} {ds : List Char}
    (h : Decided P read' ds) (f : γ → β)
    (hr : ∀ y, Bracketed y → read (cs ++ y) = (f (read' (ds ++ y)).1, (read' (ds ++ y)).2)) :
    Decided P read cs := by
  have hnil : read cs = (f (read' ds).1, (read' ds).2) := by simpa using hr [] (.inl rfl)
  refine h.imp (fun h y hy => ?_) fun ⟨h, hP⟩ =>
    ⟨⟨by rw [hnil]; exact h.all, fun d z hd => ?_⟩, hP⟩
  · rw [hr y hy, h y hy, hnil]
  · rw [hr _ (bracketed_cons hd z)]
    exact h.more d z hd

/-- A reader that takes nothing more is settled. -/
theorem Decided.stop (b : β) (ds : List Char)
    (hr : ∀ y, Bracketed y → read (cs ++ y) = (b, ds ++ y)) : Decided P read cs := by
  have hnil : read cs = (b, ds) := by simpa using hr [] (.inl rfl)
  exact .inl fun y hy => by rw [hr y hy, hnil]

end VarLogic.Css
