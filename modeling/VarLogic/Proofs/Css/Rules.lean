/-
Rules as CSS reads them off the lexemes of a sheet. A rule is a prelude up to
the first brace outside any block, and a block up to the brace that closes it;
what stands in parentheses, square brackets and braces of its own is passed
over (`splitTop`). A prelude that starts with an at-keyword makes an at-rule,
which a semicolon ends as well.
-/
import VarLogic.Proofs.Css.Boundary

namespace VarLogic.Css

/-! ## Blocks -/

/-- The token that a block is open up to, if the token opens one. -/
def closer? : Token → Option Token
  | .function _ | .openParen => some .closeParen
  | .openSquare => some .closeSquare
  | .openCurly => some .closeCurly
  | _ => none

/-- The closing tokens that are due after a token, innermost first. A closing
token that is not the next one due counts for nothing. -/
def dueAfter (due : List Token) (t : Token) : List Token :=
  match closer? t with
  | some c => c :: due
  | none => if due.head? = some t then due.tail else due

/-- Splits lexemes at the first token outside any block that is a `stop`. -/
def splitTop (stop : Token → Bool) :
    List Token → List Lexeme → Option (List Lexeme × Lexeme × List Lexeme)
  | _, [] => none
  | due, l :: ls =>
    if due = [] ∧ stop l.token = true then some ([], l, ls)
    else (splitTop stop (dueAfter due l.token) ls).map fun r => (l :: r.1, r.2)

/-- Lexemes whose blocks are all closed, with no token outside a block that is
`banned`. Inside a block only the token that closes it is. -/
inductive Nested : (Token → Bool) → List Lexeme → Prop where
  | nil {banned : Token → Bool} : Nested banned []
  | token {banned : Token → Bool} {l : Lexeme} {ls : List Lexeme} :
      closer? l.token = none → banned l.token = false → Nested banned ls → Nested banned (l :: ls)
  | block {banned : Token → Bool} {c : Token} {l m : Lexeme} {inner ls : List Lexeme} :
      closer? l.token = some c → banned l.token = false → Nested (· == c) inner → m.token = c →
      Nested banned ls → Nested banned (l :: (inner ++ m :: ls))

theorem closer?_closer {t c : Token} (h : closer? t = some c) : closer? c = none := by
  unfold closer? at h
  split at h <;> cases h <;> rfl

theorem splitTop_cons {stop : Token → Bool} {due : List Token} {l : Lexeme}
    (h : ¬ (due = [] ∧ stop l.token = true)) (ls : List Lexeme) :
    splitTop stop due (l :: ls) =
      (splitTop stop (dueAfter due l.token) ls).map fun r => (l :: r.1, r.2) := by
  rw [splitTop, if_neg h]

/-- A nested part is passed over, in whatever block it stands, if nothing that
ends the search or the block is allowed in it. -/
theorem Nested.splitTop {banned stop : Token → Bool} {ks : List Lexeme} (h : Nested banned ks)
    {due : List Token}
    (hb : ∀ t, banned t = false → ¬ (due = [] ∧ stop t = true) ∧ due.head? ≠ some t)
    (ls : List Lexeme) :
    Css.splitTop stop due (ks ++ ls) = (Css.splitTop stop due ls).map fun r => (ks ++ r.1, r.2) := by
  induction h generalizing due ls with
  | nil => simp
  | @token banned l ks hl hbl _ ih =>
    obtain ⟨hstop, hhead⟩ := hb l.token hbl
    have hdue : dueAfter due l.token = due := by simp only [dueAfter, hl, if_neg hhead]
    rw [List.cons_append, splitTop_cons hstop, hdue, ih hb, Option.map_map]
    rfl
  | @block banned c l m inner ks hl hbl _ hm _ ihinner ih =>
    obtain ⟨hstop, -⟩ := hb l.token hbl
    have hdue : dueAfter due l.token = c :: due := by simp only [dueAfter, hl]
    have hclose : dueAfter (c :: due) m.token = due := by
      simp only [dueAfter, hm, closer?_closer hl, List.head?_cons, if_pos, List.tail_cons]
    have hinner : ∀ t, (t == c) = false →
        ¬ (c :: due = [] ∧ stop t = true) ∧ (c :: due).head? ≠ some t := fun t ht => by
      refine ⟨fun h => List.cons_ne_nil c due h.1, fun h => ?_⟩
      rw [Option.some.inj h, beq_self_eq_true] at ht
      cases ht
    rw [List.cons_append, splitTop_cons hstop, hdue, List.append_assoc, ihinner hinner,
      List.cons_append, splitTop_cons (fun h => List.cons_ne_nil c due h.1), hclose, ih hb, Option.map_map,
      Option.map_map, Option.map_map]
    simp [Function.comp_def]

/-- Lexemes up to where all that is due is closed. -/
def Pending (stop : Token → Bool) : List Token → List Lexeme → Prop
  | [], ks => Nested stop ks
  | c :: due, ks => ∃ inner m rest,
      ks = inner ++ m :: rest ∧ Nested (· == c) inner ∧ m.token = c ∧ Pending stop due rest

section
variable {stop : Token → Bool} {due : List Token} {ks : List Lexeme} {l : Lexeme}

theorem Pending.close (h : Pending stop due ks) : Pending stop (l.token :: due) (l :: ks) :=
  ⟨[], l, ks, rfl, .nil, rfl, h⟩

theorem Pending.token (hl : closer? l.token = none) (hstop : ¬ (due = [] ∧ stop l.token = true))
    (hhead : due.head? ≠ some l.token) (h : Pending stop due ks) : Pending stop due (l :: ks) := by
  cases due with
  | nil => exact Nested.token hl (by simpa using hstop) h
  | cons d due =>
    obtain ⟨inner, n, after, rfl, hinner, hn, hafter⟩ := h
    have hb : (l.token == d) = false := beq_eq_false_iff_ne.2 fun he => hhead (by simp [he])
    exact ⟨l :: inner, n, after, rfl, .token hl hb hinner, hn, hafter⟩

theorem Pending.block {c : Token} (hl : closer? l.token = some c)
    (hstop : ¬ (due = [] ∧ stop l.token = true)) (hdue : ∀ d ∈ due, closer? d = none)
    (h : Pending stop (c :: due) ks) : Pending stop due (l :: ks) := by
  obtain ⟨inner, n, after, rfl, hinner, hn, hafter⟩ := h
  cases due with
  | nil =>
    have hb : stop l.token = false := by simpa using hstop
    exact Nested.block hl hb hinner hn hafter
  | cons d due =>
    obtain ⟨inner', n', after', rfl, hinner', hn', hafter'⟩ := hafter
    have hb : (l.token == d) = false := beq_eq_false_iff_ne.2 fun he => by
      rw [he, hdue d (by simp)] at hl
      cases hl
    exact ⟨l :: (inner ++ n :: inner'), n', after', by simp, .block hl hb hinner hn hinner', hn',
      hafter'⟩

end

/-- What is passed over is nested. -/
theorem pending_of_splitTop {stop : Token → Bool} {due : List Token} {ls ks rest : List Lexeme}
    {m : Lexeme} (hdue : ∀ c ∈ due, closer? c = none) (h : splitTop stop due ls = some (ks, m, rest)) :
    Pending stop due ks ∧ stop m.token = true ∧ ls = ks ++ m :: rest := by
  induction ls generalizing due ks with
  | nil => cases h
  | cons l ls ih =>
    by_cases hstop : due = [] ∧ stop l.token = true
    · rw [splitTop, if_pos hstop] at h
      cases h
      obtain ⟨rfl, hm⟩ := hstop
      exact ⟨.nil, hm, rfl⟩
    · rw [splitTop_cons hstop, Option.map_eq_some_iff] at h
      obtain ⟨⟨ks, m, rest⟩, h, he⟩ := h
      cases he
      cases hl : closer? l.token with
      | some c =>
        have hd : dueAfter due l.token = c :: due := by simp only [dueAfter, hl]
        rw [hd] at h
        obtain ⟨hks, hm, rfl⟩ := ih (List.forall_mem_cons.2 ⟨closer?_closer hl, hdue⟩) h
        exact ⟨hks.block hl hstop hdue, hm, rfl⟩
      | none =>
        by_cases hhead : due.head? = some l.token
        · obtain ⟨due, rfl⟩ := List.head?_eq_some_iff.1 hhead
          have hd : dueAfter (l.token :: due) l.token = due := by simp [dueAfter, hl]
          rw [hd] at h
          obtain ⟨hks, hm, rfl⟩ := ih (fun c hc => hdue c (by simp [hc])) h
          exact ⟨hks.close, hm, rfl⟩
        · have hd : dueAfter due l.token = due := by simp only [dueAfter, hl, if_neg hhead]
          rw [hd] at h
          obtain ⟨hks, hm, rfl⟩ := ih hdue h
          exact ⟨hks.token hl hstop hhead, hm, rfl⟩

/-- The search for the first stop outside any block. -/
theorem splitTop_eq_some {stop : Token → Bool} {ls ks rest : List Lexeme} {m : Lexeme} :
    splitTop stop [] ls = some (ks, m, rest) ↔
      Nested stop ks ∧ stop m.token = true ∧ ls = ks ++ m :: rest := by
  constructor
  · exact pending_of_splitTop (by simp)
  · rintro ⟨hks, hm, rfl⟩
    rw [hks.splitTop (fun t ht => ⟨fun h => by simp [ht] at h, by simp⟩), splitTop,
      if_pos ⟨rfl, hm⟩]
    simp

/-! ## Rules -/

/-- A rule of a sheet, as read. -/
structure ReadRule where
  /-- The at-keyword, if it is an at-rule. -/
  keyword? : Option (List Char)
  /-- Everything in front of the block. -/
  prelude : List Lexeme
  /-- Everything in the block. -/
  block : List Lexeme

/-- Does not count in front of a rule. -/
def isSkipped : Token → Bool
  | .whitespace _ | .comment _ | .cdo | .cdc => true
  | _ => false

/-- The name of an at-keyword. -/
def Token.atKeyword? : Token → Option (List Char)
  | .atKeyword name => some name
  | _ => none

/-- The at-keyword that lexemes start with. -/
def keyword? (ls : List Lexeme) : Option (List Char) :=
  (ls.find? fun l => !isSkipped l.token).bind fun l => l.token.atKeyword?

/-- A brace behind a prelude does not change its keyword. -/
theorem keyword?_append {ks ls : List Lexeme} {l : Lexeme} (hl : l.token = .openCurly) :
    keyword? (ks ++ l :: ls) = keyword? ks := by
  have hfind : (l :: ls).find? (fun l => !isSkipped l.token) = some l :=
    List.find?_cons_of_pos (by rw [hl]; rfl)
  rw [keyword?, keyword?, List.find?_append, hfind]
  cases ks.find? fun l => !isSkipped l.token with
  | none => simp [hl, Token.atKeyword?]
  | some k => rfl

/-- Ends the prelude of a rule. -/
def endsPrelude (atRule : Bool) (t : Token) : Bool :=
  t == .openCurly || (atRule && t == .semicolon)

/-- Reads a rule with a block, and returns what follows it. -/
def readRule? (ls : List Lexeme) : Option (ReadRule × List Lexeme) := do
  let (prelude, m, ls') ← splitTop (endsPrelude (keyword? ls).isSome) [] ls
  if m.token = .openCurly then
    let (block, _, rest) ← splitTop (· == .closeCurly) [] ls'
    return (⟨keyword? ls, prelude, block⟩, rest)
  else none

/-- **What is read as a rule**: a prelude and a block, both nested. -/
theorem readRule?_eq_some {ls rest : List Lexeme} {rule : ReadRule} :
    readRule? ls = some (rule, rest) ↔ ∃ l m,
      ls = rule.prelude ++ l :: (rule.block ++ m :: rest) ∧ l.token = .openCurly ∧
      m.token = .closeCurly ∧ rule.keyword? = keyword? ls ∧
      Nested (endsPrelude (keyword? ls).isSome) rule.prelude ∧ Nested (· == .closeCurly) rule.block := by
  obtain ⟨keyword, prelude, block⟩ := rule
  unfold readRule?
  constructor
  · intro h
    rw [Option.bind_eq_bind, Option.bind_eq_some_iff] at h
    obtain ⟨⟨prelude', l, ls'⟩, hprelude, h⟩ := h
    dsimp only at h
    split at h
    · rename_i hl
      rw [Option.bind_eq_some_iff] at h
      obtain ⟨⟨block', m, rest'⟩, hblock, h⟩ := h
      cases h
      obtain ⟨hnp, -, hls⟩ := splitTop_eq_some.1 hprelude
      obtain ⟨hnb, hm, rfl⟩ := splitTop_eq_some.1 hblock
      exact ⟨l, m, hls, hl, by simpa using hm, rfl, hnp, hnb⟩
    · cases h
  · rintro ⟨l, m, hls, hl, hm, hk, hnp, hnb⟩
    have hprelude : splitTop (endsPrelude (keyword? ls).isSome) [] ls =
        some (prelude, l, block ++ m :: rest) :=
      splitTop_eq_some.2 ⟨hnp, by simp [endsPrelude, hl], hls⟩
    have hblock : splitTop (· == .closeCurly) [] (block ++ m :: rest) = some (block, m, rest) :=
      splitTop_eq_some.2 ⟨hnb, by simp [hm], rfl⟩
    dsimp only at hk
    simp [hprelude, hl, hblock, hk]

end VarLogic.Css
