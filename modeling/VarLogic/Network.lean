/-
Toggle networks. Every composite node of a formula gets a toggle pair of its
own, declared through the pairs of its children. The pairs are named after the
node: the root has the base name, and a letter is appended on the way down,
`A` to the left, `B` to the right and `X` below a negation.
-/
import VarLogic.Formula

namespace VarLogic

namespace Formula

open Toggle (property reference referenceOr)

/-- The toggle that reflects a formula whose node is named `id`; a leaf
reflects itself. -/
def toggle : Formula String → String → String
  | .leaf a, _ => a
  | _, id => id

/-- The declarations of all composite nodes, children before parents.

An `and` is off if either side is off, and on only if both are: its `-0` side
refers to both `-0` sides, so that either makes it invalid, and its `-1` side
falls back from one `-1` side to the other. An `or` is the other way about. -/
def network : Formula String → String → List Declaration
  | .leaf _, _ => []
  | .not f, id =>
    let x := f.toggle (id ++ "X")
    f.network (id ++ "X") ++
      [⟨property id false, reference x true⟩,
       ⟨property id true, reference x false⟩]
  | .and l r, id =>
    let a := l.toggle (id ++ "A")
    let b := r.toggle (id ++ "B")
    l.network (id ++ "A") ++ r.network (id ++ "B") ++
      [⟨property id false, reference a false ++ " " ++ reference b false⟩,
       ⟨property id true, referenceOr a true (reference b true)⟩]
  | .or l r, id =>
    let a := l.toggle (id ++ "A")
    let b := r.toggle (id ++ "B")
    l.network (id ++ "A") ++ r.network (id ++ "B") ++
      [⟨property id false, referenceOr a false (reference b false)⟩,
       ⟨property id true, reference a true ++ " " ++ reference b true⟩]

end Formula

/-- A condition over toggles as a network. -/
structure Network where
  /-- The toggle that reflects the condition. -/
  id : String
  /-- The declarations of its composite nodes. -/
  declarations : List Declaration
  /-- The formula they follow. -/
  formula : Formula String
deriving Repr

/-- The network of a condition whose leaves are toggles, if it has a leaf. -/
def Network.ofCondition? (c : Condition String) (base : String) : Option Network :=
  (Formula.ofCondition? c).map fun f => ⟨f.toggle base, f.network base, f⟩

end VarLogic
