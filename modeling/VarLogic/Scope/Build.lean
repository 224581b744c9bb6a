/-
Building scopes, one definition at a time. Each leaf of a definition is a hook
or the name of a condition in sight, and the definition is followed in two
ways: with the names expanded down to hooks, for value texts, and with the
names standing for their toggles, for the network. Ids are derived from the
outermost definitions and the depth, so the same hook in two independent
scopes has two ids; an id made twice is an error.
-/
import VarLogic.Scope.Basic

namespace VarLogic

/-- What a leaf stands for. -/
inductive Target where
  | hook (id : String)
  | reference (compiled : Option Compiled)

namespace Target

/-- The leaf over hooks. -/
def tree : Target → Condition String
  | hook id => .leaf id
  | reference none => .vacuous
  | reference (some c) => c.tree

/-- The leaf over toggles. -/
def toggle : Target → Condition String
  | hook id => .leaf id
  | reference none => .vacuous
  | reference (some c) => .leaf c.toggle

end Target

/-- What a condition over targets comes to, if there is a hook in it. -/
def Compiled.ofTargets? (c : Condition Target) (base : String) : Option Compiled := do
  let tree ← (c.bind Target.tree).normal?
  let formula ← Formula.ofCondition? tree
  let network ← Network.ofCondition? (c.bind Target.toggle) base
  some ⟨network.id, network.declarations, tree, formula⟩

namespace Scope

/-! ## Ids -/

/-- The id of a text at this depth. -/
def idOf (s : Scope) (text : String) : String :=
  ShortId.ofValue (.array [.string text, .string s.hash, .number (.integer s.depth)])

/-- An id must not have been made for anything else. -/
def claim (s : Scope) (id : String) (owner : Owner) : Except Error Unit :=
  match s.owner? id with
  | none => .ok ()
  | some first => .error (.idCollision id first owner)

/-! ## Leaves -/

/-- The id of a hook, which is brought in here unless a level has it. -/
def internHook (text : String) (s : Scope) : Except Error (String × Scope) :=
  match s.hookId? text with
  | some id => .ok (id, s)
  | none =>
    match Hook.parse text with
    | .error why => .error (.invalidHook text why)
    | .ok hook => do
      let id := s.idOf text
      s.claim id (.hook text)
      return (id, { s with level.hooks := s.level.hooks ++ [⟨hook, id⟩] })

/-- What a leaf stands for. -/
def resolveLeaf (text : String) : StateT Scope (Except Error) (Condition Target) := fun s =>
  if Hook.isHookSyntax text then do
    let (id, s) ← internHook text s
    return (.leaf (.hook id), s)
  else match s.lookup? text with
    | none => .error (.unknownCondition text)
    | some c => return (.leaf (.reference c.compiled), s)

/-- What all leaves of a definition stand for, left to right. -/
def resolve (definition : Condition String) : StateT Scope (Except Error) (Condition Target) :=
  definition.bindM resolveLeaf

/-! ## Definitions -/

/-- The id that a composite condition gets must be free. -/
def claimBase (s : Scope) (base : String) (name : String) : Option Compiled → Except Error Unit
  | none => .ok ()
  | some c => if c.declarations.isEmpty then .ok () else s.claim base (.condition name)

/-- Adds a definition. -/
def define (s : Scope) (name : String) (definition : Condition String) : Except Error Scope := do
  Definitions.checkName name
  if name ∈ s.level.names then .error (.duplicateCondition name)
  else
    let (targets, s) ← resolve definition s
    let base := s.idOf name
    let compiled := Compiled.ofTargets? targets base
    s.claimBase base name compiled
    return { s with level.conditions := s.level.conditions ++ [⟨name, definition, compiled⟩] }

/-- Adds definitions in order. -/
def defineAll (s : Scope) (definitions : Definitions) : Except Error Scope :=
  definitions.foldlM (fun s (name, c) => s.define name c) s

/-- The outermost scope of some definitions. -/
def root (definitions : Definitions) : Except Error Scope :=
  defineAll ⟨ShortId.ofValue definitions.toValue, .empty, []⟩ definitions

/-- A scope nested in this one. -/
def nest (s : Scope) (definitions : Definitions) : Except Error Scope :=
  defineAll ⟨s.hash, .empty, s.levels⟩ definitions

/-- An outermost scope, or one nested in another. -/
def create (definitions : Definitions) : Option Scope → Except Error Scope
  | none => root definitions
  | some parent => parent.nest definitions

/-- The scopes that can be built: an outermost one, and others nested in it to
any depth. -/
inductive Reachable : Scope → Prop where
  | root {definitions : Definitions} {s : Scope} : root definitions = .ok s → Reachable s
  | nest {parent s : Scope} {definitions : Definitions} :
      Reachable parent → parent.nest definitions = .ok s → Reachable s

end Scope

end VarLogic
