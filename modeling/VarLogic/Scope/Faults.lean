/-
What can be wrong with a definition, said of the scope as it stands before the
definition is made. Its name comes first, then its leaves from left to right,
and at last the id of its own node, if its network needs one. A hook that is
new to the scope is parsed and gets an id, which the leaves before it may have
taken; a hook that is known, and a name without a hook in it, ask for nothing.
-/
import VarLogic.Scope.View

namespace VarLogic

/-- What a tree over hooks and a tree over toggles come to. -/
def Compiled.ofTrees? (tree toggles : Condition String) (base : String) : Option Compiled := do
  let tree ← tree.normal?
  let formula ← Formula.ofCondition? tree
  let network ← Network.ofCondition? toggles base
  some ⟨network.id, network.declarations, tree, formula⟩

namespace Scope

/-! ## Ids held -/

/-- An id was made for a hook or for a composite condition of some level. -/
inductive Holds (s : Scope) (id : String) : Owner → Prop where
  | hook {level : Level} {h : HookEntry} : level ∈ s.levels → h ∈ level.hooks → h.id = id →
      Holds s id (.hook h.hook.text)
  | condition {level : Level} {c : NamedCondition} : level ∈ s.levels → c ∈ level.conditions →
      c.declarations ≠ [] → c.toggle? = some id → Holds s id (.condition c.name)

/-- A hook that no level has brought in. -/
def IsNewHook (s : Scope) (text : String) : Prop :=
  Hook.isHookSyntax text = true ∧ ∀ level ∈ s.levels, ∀ h ∈ level.hooks, h.hook.text ≠ text

/-- An id is held once the leaves `read` of a definition have been read: by now
the new hooks among them have ids as well. -/
inductive HoldsAfter (s : Scope) (read : List String) (id : String) : Owner → Prop where
  | before {owner : Owner} : s.Holds id owner → HoldsAfter s read id owner
  | leaf {text : String} : text ∈ read → s.IsNewHook text → s.idOf text = id →
      HoldsAfter s read id (.hook text)

/-! ## Leaves -/

/-- What is wrong with a leaf that is read after the leaves `read`. -/
inductive LeafFault (s : Scope) (read : List String) (leaf : String) : Error → Prop where
  | invalidHook {why : HookFault} : s.IsNewHook leaf → leaf ∉ read →
      Hook.parse leaf = .error why → LeafFault s read leaf (.invalidHook leaf why)
  | idCollision {hook : Hook} {first : Owner} : s.IsNewHook leaf → leaf ∉ read →
      Hook.parse leaf = .ok hook → s.HoldsAfter read (s.idOf leaf) first →
      LeafFault s read leaf (.idCollision (s.idOf leaf) first (.hook leaf))
  | unknownCondition : Hook.isHookSyntax leaf = false → (∀ level ∈ s.levels, leaf ∉ level.names) →
      LeafFault s read leaf (.unknownCondition leaf)

/-- Nothing is wrong with any leaf, read from left to right. -/
def LeavesPass (s : Scope) (leaves : List String) : Prop :=
  ∀ read leaf rest, leaves = read ++ leaf :: rest → ∀ e, ¬ s.LeafFault read leaf e

/-! ## Definitions -/

/-- A definition over toggles: a hook stands for its id, which it gets here if
it is new, and a name for the toggle of its condition, if that has a hook. -/
def toggleTree (s : Scope) (definition : Condition String) : Condition String :=
  definition.bind fun leaf =>
    if Hook.isHookSyntax leaf then .leaf ((s.hookId? leaf).getD (s.idOf leaf))
    else ((s.toggle? leaf).map .leaf).getD .vacuous

/-- The network of a definition has a node of its own. -/
def IsComposite (s : Scope) (name : String) (definition : Condition String) : Prop :=
  ∃ network, Network.ofCondition? (s.toggleTree definition) (s.idOf name) = some network ∧
    network.declarations ≠ []

/-- What is wrong with a definition; each check is made only if nothing was
wrong before it. -/
inductive Fault (s : Scope) (name : String) (definition : Condition String) : Error → Prop where
  | invalidName {why : NameFault} : Definitions.checkName name = .error (.invalidName name why) →
      Fault s name definition (.invalidName name why)
  | duplicateCondition : Definitions.checkName name = .ok () → name ∈ s.level.names →
      Fault s name definition (.duplicateCondition name)
  | leaf {read rest : List String} {leaf : String} {e : Error} :
      Definitions.checkName name = .ok () → name ∉ s.level.names →
      definition.leaves = read ++ leaf :: rest → s.LeavesPass read → s.LeafFault read leaf e →
      Fault s name definition e
  | idCollision {first : Owner} : Definitions.checkName name = .ok () → name ∉ s.level.names →
      s.LeavesPass definition.leaves → s.IsComposite name definition →
      s.HoldsAfter definition.leaves (s.idOf name) first →
      Fault s name definition (.idCollision (s.idOf name) first (.condition name))

/-! ## Reading twice -/

/-- A definition with what its leaves stand for, over hooks or over toggles. -/
def resolveTo (view : Target → Condition String) (definition : Condition String) :
    StateT Scope (Except Error) (Condition String) :=
  definition.bindM fun leaf => do return (← resolveLeaf leaf).bind view

/-- Adds a definition whose leaves are read twice, for the tree over hooks and
then for the one over toggles. -/
def defineTwice (s : Scope) (name : String) (definition : Condition String) :
    Except Error Scope := do
  Definitions.checkName name
  if name ∈ s.level.names then .error (.duplicateCondition name)
  else
    let (tree, s) ← resolveTo Target.tree definition s
    let (toggles, s) ← resolveTo Target.toggle definition s
    let base := s.idOf name
    let compiled := Compiled.ofTrees? tree toggles base
    s.claimBase base name compiled
    return { s with level.conditions := s.level.conditions ++ [⟨name, definition, compiled⟩] }

end Scope

end VarLogic
