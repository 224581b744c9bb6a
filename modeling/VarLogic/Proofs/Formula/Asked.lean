/-
What evaluation does not ask for does not matter. A formula is evaluated by
asking for one leaf after the other, and the answers so far decide which leaf is
next or whether there is one: so a predicate that gives the same answers is asked
the same (`eval_congr_asked`). A value text is expanded in the same order. A
branch that evaluation does not reach stands in the fallback of a reference that
has a value, and its toggles are never looked up; they may be in any state
(`asked_alone_matter`).

Ids and branches are pasted into the text as they are. A parenthesis without its
partner ends a reference too early, and a comma ends a name, also where evaluation
asks for nothing but that leaf (`not_selected_as_pasted`).
-/
import VarLogic.Proofs.Condition.Renaming
import VarLogic.Proofs.Formula.Branches

namespace VarLogic.Formula

variable {α β : Type} {holds : α → Bool}

/-! ## Evaluation by asking -/

/-- Evaluation by a predicate with effects: the right side is asked only where
the left side does not decide. -/
def evalM {m : Type → Type} [Monad m] (ask : α → m Bool) : Formula α → m Bool
  | .leaf a => ask a
  | .and l r => do
    if ← l.evalM ask then r.evalM ask else return false
  | .or l r => do
    if ← l.evalM ask then return true else r.evalM ask
  | .not f => do return !(← f.evalM ask)

/-- Answers as `holds` does, and keeps a record of what it was asked. -/
def recorded (holds : α → Bool) (a : α) : StateM (List α) Bool := fun before =>
  (holds a, before ++ [a])

/-- The record of an evaluation are the leaves asked. -/
theorem evalM_recorded (f : Formula α) (before : List α) :
    f.evalM (recorded holds) before = (f.eval holds, before ++ f.asked holds) := by
  induction f generalizing before with
  | leaf a => rfl
  | and l r ihl ihr =>
    simp only [evalM, bind, StateT.bind, ihl, eval, asked]
    cases l.eval holds with
    | true => simp [ihr]
    | false =>
      rw [if_neg Bool.false_ne_true, if_neg Bool.false_ne_true, List.append_nil]
      rfl
  | or l r ihl ihr =>
    simp only [evalM, bind, StateT.bind, ihl, eval, asked]
    cases l.eval holds with
    | true =>
      rw [if_pos rfl, if_pos rfl, List.append_nil]
      rfl
    | false => simp [ihr]
  | not f ih =>
    simp only [evalM, bind, StateT.bind, ih, eval, asked]
    rfl

/-! ## What is asked -/

theorem sublist_asked (holds : α → Bool) (f : Formula α) : (f.asked holds).Sublist f.leaves := by
  induction f with
  | leaf a => exact .refl _
  | and l r ihl ihr | or l r ihl ihr =>
    rw [asked, leaves]
    refine ihl.append ?_
    split
    · first | exact ihr | exact List.nil_sublist _
    · first | exact List.nil_sublist _ | exact ihr
  | not f ih => exact ih

/-- The same answers make the same questions, and the same result. -/
theorem eval_congr_asked {f : Formula α} {other : α → Bool}
    (h : ∀ a ∈ f.asked holds, other a = holds a) :
    f.eval other = f.eval holds ∧ f.asked other = f.asked holds := by
  induction f with
  | leaf a => exact ⟨h a (by simp [asked]), rfl⟩
  | and l r ihl ihr =>
    obtain ⟨hl, hal⟩ := ihl fun a ha => h a (by simp [asked, ha])
    rw [eval, eval, asked, asked, hl, hal]
    cases hv : l.eval holds with
    | true =>
      obtain ⟨hr, har⟩ := ihr fun a ha => h a (by simp [asked, hv, ha])
      simp [hr, har]
    | false => simp
  | or l r ihl ihr =>
    obtain ⟨hl, hal⟩ := ihl fun a ha => h a (by simp [asked, ha])
    rw [eval, eval, asked, asked, hl, hal]
    cases hv : l.eval holds with
    | true => simp
    | false =>
      obtain ⟨hr, har⟩ := ihr fun a ha => h a (by simp [asked, hv, ha])
      simp [hr, har]
  | not f ih =>
    obtain ⟨hf, haf⟩ := ih h
    exact ⟨congrArg Bool.not hf, haf⟩

theorem eval_map (g : α → β) (holds : β → Bool) (f : Formula α) :
    (f.map g).eval holds = f.eval (holds ∘ g) := by
  induction f with
  | leaf a => rfl
  | and l r ihl ihr | or l r ihl ihr => rw [map, eval, eval, ihl, ihr]
  | not f ih => rw [map, eval, eval, ih]

theorem asked_map (g : α → β) (holds : β → Bool) (f : Formula α) :
    (f.map g).asked holds = (f.asked (holds ∘ g)).map g := by
  induction f with
  | leaf a => rfl
  | and l r ihl ihr | or l r ihl ihr =>
    rw [map, asked, asked, eval_map, ihl, ihr, List.map_append]
    split <;> rfl
  | not f ih => exact ih

/-! ## On an element -/

open Element

/-- **Only the leaves that evaluation asks for matter.** Evaluation asks for leaves
from left to right, each no more often than it stands in the formula. A predicate
that agrees on what was asked gives the same result, and is asked the same. And a
value text is the branch selected, up to blanks, as soon as the pairs of the leaves
asked for are decided as they are answered, whatever the other pairs are. For the
text to be read as it was put together, every parenthesis in it needs its partner,
and no comma may be in the names asked for. -/
theorem asked_alone_matter (f : Formula α) (holds : α → Bool) :
    f.evalM (recorded holds) [] = (f.eval holds, f.asked holds) ∧
    (f.asked holds).Sublist f.leaves ∧
    (∀ other : α → Bool, (∀ a ∈ f.asked holds, other a = holds a) →
      f.eval other = f.eval holds ∧ f.asked other = f.asked holds) ∧
    ∀ (id : α → String) (e : Element) (ifTrue ifFalse : String),
      (∀ a ∈ f.leaves, Balanced (id a).toList) → Balanced ifTrue.toList → Balanced ifFalse.toList →
      (∀ a ∈ f.asked holds, ',' ∉ (id a).toList) →
      (∀ a ∈ f.asked holds, e.Decides [] (id a) (holds a)) →
        Padded (e.substitute? [] ((f.map id).valueText ifTrue ifFalse).toList)
            (e.substitute? [] (if f.eval holds then ifTrue else ifFalse).toList) ∧
          e.resolve? ((f.map id).valueText ifTrue ifFalse) =
            e.resolve? (if f.eval holds then ifTrue else ifFalse) := by
  refine ⟨by rw [evalM_recorded, List.nil_append], sublist_asked holds f,
    fun other => eval_congr_asked, fun id e ifTrue ifFalse hb ht hf hc hd => ?_⟩
  -- Read off the element, the leaves asked for are as they are answered.
  have hstate : ∀ a ∈ f.asked holds, (e.state ∘ id) a = holds a := fun a ha => (hd a ha).state_eq
  obtain ⟨heval, hasked⟩ := eval_congr_asked hstate
  have hleaves : ∀ s ∈ (f.map id).leaves, Balanced s.toList := by
    rw [leaves_map]
    exact List.forall_mem_map.2 hb
  have hpairs : ∀ s ∈ (f.map id).asked e.state, ',' ∉ s.toList ∧ e.Decides [] s (e.state s) := by
    rw [asked_map, hasked]
    refine List.forall_mem_map.2 fun a ha => ⟨hc a ha, ?_⟩
    rw [(hd a ha).state_eq]
    exact hd a ha
  have hpadded := Element.substitute?_valueText_of_balanced hleaves hpairs ht hf
  rw [eval_map, heval] at hpadded
  exact ⟨hpadded, hpadded.map_collapse⟩

/-- `h` is on and `d` is off. Both sides of `both` have a value, and nothing else
is declared. -/
def maskedElement : Element where
  declared := [("--h-1", "initial"), ("--h-0", ""), ("--d-1", ""), ("--d-0", "initial"),
    ("--both-1", "1"), ("--both-0", "0")]

/-- Holds while `h` is on and `d` is off, whatever the others are. -/
def maskedFormula : Formula String :=
  .and (.or (.leaf "h") (.and (.leaf "both") (.leaf "lost")))
    (.not (.and (.leaf "d") (.leaf "lost,too")))

/-- Of five leaves two are asked for, and the others are no toggles. -/
theorem asked_alone_matter_masked :
    maskedFormula.evalM (recorded (· == "h")) [] = (true, ["h", "d"]) ∧
    (∀ on, ¬ maskedElement.Decides [] "both" on ∧ ¬ maskedElement.Decides [] "lost" on) ∧
    maskedElement.resolve? (maskedFormula.valueText "T" "F") = some "T" := by
  have hasked : maskedFormula.asked (· == "h") = ["h", "d"] := by decide
  have hanswers : ∀ id ∈ ["h", "d"], ',' ∉ id.toList ∧ maskedElement.Decides [] id (id == "h") := by
    simp only [List.forall_mem_cons, List.not_mem_nil, false_implies, implies_true, and_true]
    exact ⟨⟨by decide, settled_pair (by decide) (by decide) [] (by simp)⟩,
      by decide, settled_pair (by decide) (by decide) [] (by simp)⟩
  have hopen : ∀ text ∈ "T" :: "F" :: maskedFormula.leaves, '(' ∉ text.toList := by decide
  have hclose : ∀ text ∈ "T" :: "F" :: maskedFormula.leaves, ')' ∉ text.toList := by decide
  have hbalanced : ∀ text ∈ "T" :: "F" :: maskedFormula.leaves, Balanced text.toList :=
    fun text ht => balanced_of_not_mem (hopen text ht) (hclose text ht)
  obtain ⟨hrun, -, -, htext⟩ := asked_alone_matter maskedFormula (· == "h")
  rw [hasked] at htext
  refine ⟨hrun, fun on => ⟨?_, ?_⟩, ?_⟩
  · rintro ⟨hnone, -⟩
    have hvalue : (maskedElement.computed? [] (Toggle.property "both" on)).isSome := by
      cases on <;>
        rw [computed?_of_declared (by simp) rfl (by decide), substitute?_of_plain rfl] <;> rfl
    simp [hnone] at hvalue
  · rintro ⟨-, value, hsome, -⟩
    rw [computed?_of_undeclared (by cases on <;> rfl)] at hsome
    cases hsome
  · refine (htext (fun a => a) maskedElement "T" "F" (fun a ha => hbalanced a (by simp [ha]))
      (hbalanced "T" (by simp)) (hbalanced "F" (by simp)) (fun a ha => (hanswers a ha).1)
      fun a ha => (hanswers a ha).2).2.trans ?_
    have heval : maskedFormula.eval (· == "h") = true := by decide
    rw [heval, if_pos rfl, resolve?, substitute?_of_plain rfl]
    decide

/-- `h` and `a,b` are on, and nothing else is declared. -/
def pastedElement : Element where
  declared := [("--h-1", "initial"), ("--h-0", ""), ("--a,b-1", "initial"), ("--a,b-0", "")]

/-- A comma in the name asked for, and a parenthesis in a name that is not asked
for or in the branch that is not selected. -/
theorem not_selected_as_pasted :
    (pastedElement.Decides [] "a,b" true ∧
      pastedElement.resolve? ((Formula.leaf "a,b").valueText "T" "F") = some "b-1, T b-0, F") ∧
    (pastedElement.Decides [] "h" true ∧
      pastedElement.resolve? ((Formula.or (.leaf "h") (.leaf ")")).valueText "T" "F") = none ∧
      pastedElement.resolve? ((Formula.leaf "h").valueText "T" ")") = some "T )") ∧
    pastedElement.resolve? "T" = some "T" := by
  have hplain {cs : List Char} (h : Shape.ofText cs = .plain) :
      pastedElement.substitute? [] cs = some cs := substitute?_of_plain h
  have hcut : pastedElement.computed? [] "--a" = none := computed?_of_undeclared rfl
  have hdashes : pastedElement.computed? [] "--" = none := computed?_of_undeclared rfl
  have hon : pastedElement.computed? [] "--h-1" = none := computed?_of_initial rfl (by decide)
  have hoff : pastedElement.computed? [] "--h-0" = some [] := by
    rw [computed?_of_declared (by simp) rfl (by decide)]
    exact substitute?_nil
  refine ⟨⟨settled_pair (by decide) (by decide) [] (by simp), ?_⟩,
    ⟨settled_pair (by decide) (by decide) [] (by simp), ?_, ?_⟩, ?_⟩
  · -- Both references are to `--a`, which is not declared.
    have hrest : pastedElement.substitute? [] " var(--a,b-0, F)".toList = some " b-0, F".toList := by
      rw [substitute?_of_reference (r := ⟨[' '], "--a", some "b-0, F".toList, []⟩) rfl,
        hcut, Option.none_or, Option.bind_some, hplain rfl, substitute?_nil]
      rfl
    have htext : pastedElement.substitute? [] ((Formula.leaf "a,b").valueText "T" "F").toList =
        some "b-1, T b-0, F".toList := by
      rw [substitute?_of_reference (r := ⟨[], "--a", some "b-1, T".toList,
        " var(--a,b-0, F)".toList⟩) rfl, hcut, Option.none_or, Option.bind_some, hplain rfl, hrest]
      rfl
    rw [resolve?, htext]
    decide
  · -- The parenthesis closes the reference early, and one to `--` is left over.
    have hrest : pastedElement.substitute? [] " var(--)-0, F))".toList = none := by
      rw [substitute?_of_reference (r := ⟨[' '], "--", none, "-0, F))".toList⟩) rfl, hdashes]
      rfl
    have hbody : pastedElement.substitute? []
        " var(--h-0, var(--)-1, T) var(--)-0, F))".toList = none := by
      rw [substitute?_of_reference (r := ⟨[' '], "--h-0", some " var(--)-1, T".toList,
        " var(--)-0, F))".toList⟩) rfl, hoff, hrest]
      rfl
    have htext : pastedElement.substitute? []
        ((Formula.or (.leaf "h") (.leaf ")")).valueText "T" "F").toList = none := by
      rw [substitute?_of_reference (r := ⟨[], "--h-1", some " T".toList,
        " var(--h-0, var(--)-1, T) var(--)-0, F))".toList⟩) rfl, hon, hbody, Option.none_or,
        Option.bind_some, hplain rfl]
      rfl
    rw [resolve?, htext, Option.map_none]
  · -- The parenthesis closes the reference, and its own one is left over.
    have hrest : pastedElement.substitute? [] " var(--h-0, ))".toList = some " )".toList := by
      rw [substitute?_of_reference (r := ⟨[' '], "--h-0", some [' '], [')']⟩) rfl, hoff,
        hplain (show Shape.ofText [')'] = .plain from rfl)]
      rfl
    have htext : pastedElement.substitute? [] ((Formula.leaf "h").valueText "T" ")").toList =
        some " T )".toList := by
      rw [substitute?_of_reference (r := ⟨[], "--h-1", some " T".toList,
        " var(--h-0, ))".toList⟩) rfl, hon, hrest, Option.none_or, Option.bind_some, hplain rfl]
      rfl
    rw [resolve?, htext]
    decide
  · rw [resolve?, hplain rfl]
    decide
end VarLogic.Formula
