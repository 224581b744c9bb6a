/-
The grammar of hooks (`Closed`), and what the check of the tokens makes of it.
The check walks the lexemes with the brackets that are due. At the end of the
text it asks of each bracket that is still due whether the last character of
the text would close it, and does not ask whose bracket that character is
(`checkLexemes_eq_ok`).
-/
import VarLogic.Proofs.Hook.Ends

namespace VarLogic.Hook

open Css

/-! ## Grammar -/

/-- What a token does in a hook. -/
inductive Role where
  | neutral
  | opens (closer : Char)
  | closes (closer : Char)
  | banned

def role : Token → Role
  | .function _ | .openParen => .opens ')'
  | .openSquare => .opens ']'
  | .closeParen => .closes ')'
  | .closeSquare => .closes ']'
  | .openCurly | .closeCurly | .semicolon | .badString | .badUrl => .banned
  | _ => .neutral

/-- The lexemes of a hook: at every depth no brace, no semicolon, no bad token
and no bracket without a partner, and comments, strings and urls with end
marks of their own. -/
inductive Closed : List Lexeme → Prop where
  | nil : Closed []
  | token {l : Lexeme} {ls : List Lexeme} :
      role l.token = .neutral → l.IsEnded → Closed ls → Closed (l :: ls)
  | block {c : Char} {l m : Lexeme} {inner ls : List Lexeme} :
      role l.token = .opens c → Closed inner → role m.token = .closes c → Closed ls →
      Closed (l :: (inner ++ m :: ls))

/-! ## Walking the lexemes -/

section
variable {ok : Lexeme → Prop}

/-- Walking the lexemes with the brackets that are due leaves these brackets
open. -/
def Leaves (ok : Lexeme → Prop) : List Char → List Lexeme → List Char → Prop
  | due, [], left => left = due
  | due, l :: ls, left =>
    match role l.token with
    | .neutral => ok l ∧ Leaves ok due ls left
    | .opens c => Leaves ok (c :: due) ls left
    | .closes c => ∃ rest, due = c :: rest ∧ Leaves ok rest ls left
    | .banned => False

theorem leaves_neutral {l : Lexeme} (h : role l.token = .neutral) {due left : List Char}
    {ls : List Lexeme} : Leaves ok due (l :: ls) left ↔ ok l ∧ Leaves ok due ls left := by
  simp only [Leaves, h]

theorem leaves_opens {l : Lexeme} {c : Char} (h : role l.token = .opens c) {due left : List Char}
    {ls : List Lexeme} : Leaves ok due (l :: ls) left ↔ Leaves ok (c :: due) ls left := by
  simp only [Leaves, h]

theorem leaves_closes {l : Lexeme} {c : Char} (h : role l.token = .closes c) {due left : List Char}
    {ls : List Lexeme} :
    Leaves ok due (l :: ls) left ↔ ∃ rest, due = c :: rest ∧ Leaves ok rest ls left := by
  simp only [Leaves, h]

theorem leaves_append {due left : List Char} {ks ls : List Lexeme} :
    Leaves ok due (ks ++ ls) left ↔ ∃ mid, Leaves ok due ks mid ∧ Leaves ok mid ls left := by
  induction ks generalizing due with
  | nil => simp [Leaves]
  | cons k ks ih =>
    rw [List.cons_append]
    cases h : role k.token with
    | neutral => simp only [leaves_neutral h, ih, exists_and_left, and_assoc]
    | opens c => simp only [leaves_opens h, ih]
    | closes c =>
      simp only [leaves_closes h, ih]
      constructor
      · rintro ⟨rest, hdue, mid, hks, hls⟩
        exact ⟨mid, ⟨rest, hdue, hks⟩, hls⟩
      · rintro ⟨mid, ⟨rest, hdue, hks⟩, hls⟩
        exact ⟨rest, hdue, mid, hks, hls⟩
    | banned => simp [Leaves, h]

/-- No more has to be asked of the tokens than of those that are there. -/
theorem Leaves.mono {ok' : Lexeme → Prop} {ls : List Lexeme} {due left : List Char}
    (h : ∀ l ∈ ls, role l.token = .neutral → ok l → ok' l) :
    Leaves ok due ls left → Leaves ok' due ls left := by
  induction ls generalizing due with
  | nil => exact id
  | cons l ls ih =>
    intro hl
    have ih : ∀ due, Leaves ok due ls left → Leaves ok' due ls left := fun due =>
      ih fun m hm => h m (by simp [hm])
    cases hr : role l.token with
    | neutral =>
      obtain ⟨hok, hls⟩ := (leaves_neutral hr).1 hl
      exact (leaves_neutral hr).2 ⟨h l (by simp) hr hok, ih _ hls⟩
    | opens c => exact (leaves_opens hr).2 (ih _ ((leaves_opens hr).1 hl))
    | closes c =>
      obtain ⟨rest, hdue, hls⟩ := (leaves_closes hr).1 hl
      exact (leaves_closes hr).2 ⟨rest, hdue, ih _ hls⟩
    | banned => simp [Leaves, hr] at hl

/-- What a walk has passed. -/
theorem Leaves.of_append_cons {front rest : List Lexeme} {l : Lexeme} {due left : List Char}
    (h : Leaves ok due (front ++ l :: rest) left) :
    role l.token ≠ .banned ∧ (role l.token = .neutral → ok l) := by
  obtain ⟨mid, -, h⟩ := leaves_append.1 h
  refine ⟨fun hr => ?_, fun hr => ((leaves_neutral hr).1 h).1⟩
  simp [Leaves, hr] at h

/-- Only parentheses and square brackets are ever due. -/
theorem Leaves.bracket {ls : List Lexeme} {due left : List Char} (h : Leaves ok due ls left)
    (hdue : ∀ c ∈ due, c = ')' ∨ c = ']') : ∀ c ∈ left, c = ')' ∨ c = ']' := by
  induction ls generalizing due with
  | nil =>
    obtain rfl : left = due := h
    exact hdue
  | cons l ls ih =>
    cases hr : role l.token with
    | neutral => exact ih ((leaves_neutral hr).1 h).2 hdue
    | opens c =>
      refine ih ((leaves_opens hr).1 h) (List.forall_mem_cons.2 ⟨?_, hdue⟩)
      unfold role at hr
      split at hr <;> cases hr <;> simp
    | closes c =>
      obtain ⟨rest, rfl, hls⟩ := (leaves_closes hr).1 h
      exact ih hls fun d hd => hdue d (by simp [hd])
    | banned => simp [Leaves, hr] at h

theorem leaves_replicate {l : Lexeme} {c : Char} (h : role l.token = .closes c) {n : Nat}
    {due : List Char} : Leaves ok due (List.replicate n l) [] ↔ due = List.replicate n c := by
  induction n generalizing due with
  | zero => exact eq_comm
  | succ n ih => simp [List.replicate_succ, leaves_closes h, ih]

end

/-- A closed part of the lexemes leaves due what was due. -/
theorem Closed.leaves {ks : List Lexeme} (h : Closed ks) {due left : List Char} {ls : List Lexeme} :
    Leaves Lexeme.IsEnded due (ks ++ ls) left ↔ Leaves Lexeme.IsEnded due ls left := by
  induction h generalizing due ls with
  | nil => rfl
  | token hr hended _ ih => rw [List.cons_append, leaves_neutral hr, ih, and_iff_right hended]
  | block hl _ hm _ ihinner ih =>
    rw [List.cons_append, leaves_opens hl, List.append_assoc, ihinner, List.cons_append,
      leaves_closes hm]
    simp [ih]

/-- Lexemes that close all that is due, innermost first. -/
def Closes : List Char → List Lexeme → Prop
  | [], ls => Closed ls
  | c :: due, ls => ∃ inner m rest,
      ls = inner ++ m :: rest ∧ Closed inner ∧ role m.token = .closes c ∧ Closes due rest

theorem Closes.token {due : List Char} {l : Lexeme} {ls : List Lexeme}
    (hr : role l.token = .neutral) (hended : l.IsEnded) (h : Closes due ls) : Closes due (l :: ls) := by
  cases due with
  | nil => exact Closed.token hr hended h
  | cons c due =>
    obtain ⟨inner, m, rest, rfl, hinner, hm, hrest⟩ := h
    exact ⟨l :: inner, m, rest, rfl, Closed.token hr hended hinner, hm, hrest⟩

theorem Closes.block {due : List Char} {c : Char} {l m : Lexeme} {inner ls : List Lexeme}
    (hl : role l.token = .opens c) (hinner : Closed inner) (hm : role m.token = .closes c)
    (h : Closes due ls) : Closes due (l :: (inner ++ m :: ls)) := by
  cases due with
  | nil => exact Closed.block hl hinner hm h
  | cons d due =>
    obtain ⟨inner', m', rest, rfl, hinner', hm', hrest⟩ := h
    refine ⟨l :: (inner ++ m :: inner'), m', rest, by simp, ?_, hm', hrest⟩
    exact Closed.block hl hinner hm hinner'

theorem closes_of_leaves {due : List Char} {ls : List Lexeme}
    (h : Leaves Lexeme.IsEnded due ls []) : Closes due ls := by
  induction ls generalizing due with
  | nil =>
    obtain rfl : [] = due := h
    exact .nil
  | cons l ls ih =>
    cases hr : role l.token with
    | neutral =>
      obtain ⟨hended, h⟩ := (leaves_neutral hr).1 h
      exact (ih h).token hr hended
    | opens c =>
      obtain ⟨inner, m, rest, rfl, hinner, hm, hrest⟩ := ih ((leaves_opens hr).1 h)
      exact hrest.block hr hinner hm
    | closes c =>
      obtain ⟨rest, rfl, hrest⟩ := (leaves_closes hr).1 h
      exact ⟨[], l, ls, rfl, .nil, hr, ih hrest⟩
    | banned => simp [Leaves, hr] at h

/-- A walk that leaves nothing open is one through the grammar. -/
theorem closed_iff {ls : List Lexeme} : Closed ls ↔ Leaves Lexeme.IsEnded [] ls [] := by
  constructor
  · intro h
    have hnil : Leaves Lexeme.IsEnded [] (ls ++ []) [] := h.leaves.2 rfl
    rwa [List.append_nil] at hnil
  · exact closes_of_leaves

/-! ## The check -/

theorem closeAll_eq_ok {last : Option Char} {due : List Char} :
    closeAll last due = .ok () ↔ ∀ c ∈ due, last = some c := by
  induction due with
  | nil => simp [closeAll]
  | cons c due ih =>
    rw [closeAll, List.forall_mem_cons, ← ih]
    by_cases h : last = some c
    · rw [if_pos h, and_iff_right h]
    · simp [h]

theorem checkLexemes_eq_ok {last : Option Char} {due : List Char} {ls : List Lexeme} :
    checkLexemes last due ls = .ok () ↔
      ∃ left, Leaves Checked due ls left ∧ ∀ c ∈ left, last = some c := by
  induction ls generalizing due with
  | nil => simp [checkLexemes, Leaves, closeAll_eq_ok]
  | cons l ls ih =>
    obtain ⟨t, text⟩ := l
    cases t with
    | comment _ => by_cases h : endsComment text = true <;> simp [checkLexemes, Leaves, role, Checked, h, ih]
    | string _ => by_cases h : endsString text = true <;> simp [checkLexemes, Leaves, role, Checked, h, ih]
    | url _ => by_cases h : endsUrl text = true <;> simp [checkLexemes, Leaves, role, Checked, h, ih]
    | closeParen =>
      rcases due with _ | ⟨d, due⟩
      · simp [checkLexemes, Leaves, role]
      · by_cases hd : d = ')' <;> simp [checkLexemes, Leaves, role, hd, ih]
    | closeSquare =>
      rcases due with _ | ⟨d, due⟩
      · simp [checkLexemes, Leaves, role]
      · by_cases hd : d = ']' <;> simp [checkLexemes, Leaves, role, hd, ih]
    | openCurly | closeCurly | semicolon | badString | badUrl => simp [checkLexemes, Leaves, role]
    | function _ | openParen | openSquare => simp [checkLexemes, Leaves, role, ih]
    | _ => simp [checkLexemes, Leaves, role, Checked, ih]

end VarLogic.Hook
