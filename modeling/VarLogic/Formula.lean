/-
Binary formulas, and the value text that follows one at run time. The text
`var(--x-1, T) var(--x-0, F)` is `T` while the toggle `x` is on and `F` while
it is off: one reference falls back, the other stands for nothing. A formula
nests these texts: the right side of an `and` stands in the true branch of the
left, that of an `or` in the false branch, and `not` swaps the branches.
-/
import VarLogic.Condition.Normal
import VarLogic.Toggle

namespace VarLogic

inductive Formula (α : Type) where
  | leaf (value : α)
  | and (left right : Formula α)
  | or (left right : Formula α)
  | not (formula : Formula α)
deriving DecidableEq, Repr

namespace Formula

/-! ## From conditions -/

/-- Joins formulas two by two, to the right. -/
def chain? {α : Type} (join : Formula α → Formula α → Formula α) :
    List (Formula α) → Option (Formula α)
  | [] => none
  | f :: fs => match chain? join fs with
    | none => some f
    | some g => some (join f g)

mutual

/-- The formula of a condition as it stands, leaving out what has no leaf. -/
def lower? {α : Type} : Condition α → Option (Formula α)
  | .leaf a => some (.leaf a)
  | .and cs => chain? .and (lowers cs)
  | .or cs => chain? .or (lowers cs)
  | .not c => (lower? c).map .not
termination_by structural c => c

/-- The formulas of the members that have one. -/
def lowers {α : Type} : List (Condition α) → List (Formula α)
  | [] => []
  | c :: cs => match lower? c with
    | none => lowers cs
    | some f => f :: lowers cs
termination_by structural cs => cs

end

/-- The formula of a condition, if there is a leaf in it. -/
def ofCondition? {α : Type} (c : Condition α) : Option (Formula α) :=
  c.normal?.bind lower?

/-! ## Meaning -/

/-- The truth value, given that of every leaf. -/
def eval {α : Type} (holds : α → Bool) : Formula α → Bool
  | .leaf a => holds a
  | .and l r => l.eval holds && r.eval holds
  | .or l r => l.eval holds || r.eval holds
  | .not f => !f.eval holds

/-- The leaves that evaluation asks for, in order: the right side is left out
where the left decides. -/
def asked {α : Type} (holds : α → Bool) : Formula α → List α
  | .leaf a => [a]
  | .and l r => l.asked holds ++ if l.eval holds then r.asked holds else []
  | .or l r => l.asked holds ++ if l.eval holds then [] else r.asked holds
  | .not f => f.asked holds

/-- The leaves, left to right. -/
def leaves {α : Type} : Formula α → List α
  | .leaf a => [a]
  | .and l r | .or l r => l.leaves ++ r.leaves
  | .not f => f.leaves

/-- Maps every leaf, left to right, with effects. -/
def mapM {α β : Type} {m : Type → Type} [Monad m] (f : α → m β) : Formula α → m (Formula β)
  | .leaf a => do return .leaf (← f a)
  | .and l r => do return .and (← l.mapM f) (← r.mapM f)
  | .or l r => do return .or (← l.mapM f) (← r.mapM f)
  | .not g => do return .not (← g.mapM f)

/-- Maps every leaf. -/
def map {α β : Type} (f : α → β) : Formula α → Formula β
  | .leaf a => .leaf (f a)
  | .and l r => .and (l.map f) (r.map f)
  | .or l r => .or (l.map f) (r.map f)
  | .not g => .not (g.map f)

/-- The number of nodes. -/
def size {α : Type} : Formula α → Nat
  | .leaf _ => 1
  | .and l r | .or l r => 1 + l.size + r.size
  | .not f => 1 + f.size

/-! ## Texts -/

/-- The formula as a term: `(a && !b)`. -/
def display : Formula String → String
  | .leaf a => a
  | .and l r => "(" ++ l.display ++ " && " ++ r.display ++ ")"
  | .or l r => "(" ++ l.display ++ " || " ++ r.display ++ ")"
  | .not f => "!" ++ f.display

/-- The value text that is `ifTrue` while the formula over toggles holds, and
`ifFalse` otherwise. -/
def valueText : Formula String → String → String → String
  | .leaf id, ifTrue, ifFalse =>
    Toggle.referenceOr id true ifTrue ++ " " ++ Toggle.referenceOr id false ifFalse
  | .and l r, ifTrue, ifFalse => l.valueText (r.valueText ifTrue ifFalse) ifFalse
  | .or l r, ifTrue, ifFalse => l.valueText ifTrue (r.valueText ifTrue ifFalse)
  | .not f, ifTrue, ifFalse => f.valueText ifFalse ifTrue

end Formula

end VarLogic
