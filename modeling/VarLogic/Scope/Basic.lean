/-
Scopes. A scope is a level of named conditions and of the hooks they brought
in, on top of the levels around it, nearest first. What a level does not
define is looked up in the levels around it, so an inner name hides an outer
one, and nothing a nested scope does changes the scope it is nested in.
-/
import VarLogic.Definitions
import VarLogic.Network

namespace VarLogic

/-- A hook and the id of its toggle pair. -/
structure HookEntry where
  hook : Hook
  id : String
deriving DecidableEq, Repr

/-- What a condition that has a hook comes to. -/
structure Compiled where
  /-- The toggle that reflects the condition. -/
  toggle : String
  /-- The declarations of its composite nodes, through the toggles of the
  conditions it refers to. -/
  declarations : List Declaration
  /-- Its normal form over hook ids, references expanded. -/
  tree : Condition String
  /-- The formula of that. -/
  formula : Formula String
deriving Repr

structure NamedCondition where
  name : String
  definition : Condition String
  /-- Nothing for a condition without any hook, which never holds. -/
  compiled : Option Compiled
deriving Repr

namespace NamedCondition

/-- The declarations of its composite nodes. -/
def declarations (c : NamedCondition) : List Declaration :=
  match c.compiled with
  | none => []
  | some compiled => compiled.declarations

/-- The toggle that reflects it. -/
def toggle? (c : NamedCondition) : Option String := c.compiled.map (·.toggle)

end NamedCondition

/-- One level of a scope. -/
structure Level where
  hooks : List HookEntry := []
  conditions : List NamedCondition := []
deriving Repr

namespace Level

def empty : Level := {}

/-- The names defined, in order. -/
def names (level : Level) : List String := level.conditions.map (·.name)

def condition? (level : Level) (name : String) : Option NamedCondition :=
  level.conditions.find? (·.name = name)

/-- The id of a hook brought in here. -/
def hookId? (level : Level) (text : String) : Option String :=
  (level.hooks.find? (·.hook.text = text)).map (·.id)

/-- The declarations of all composite nodes. -/
def declarations (level : Level) : List Declaration :=
  level.conditions.flatMap (·.declarations)

/-- What an id was made for: a hook, or the root of a composite condition. -/
def owner? (level : Level) (id : String) : Option Owner :=
  match level.hooks.find? (·.id = id) with
  | some entry => some (.hook entry.hook.text)
  | none =>
    (level.conditions.find? fun c => !c.declarations.isEmpty && c.toggle? = some id).map
      fun c => .condition c.name

end Level

structure Scope where
  /-- The id of the outermost definitions. -/
  hash : String
  level : Level
  /-- The levels around it, nearest first. -/
  ancestors : List Level
deriving Repr

namespace Scope

/-- All levels, nearest first. -/
def levels (s : Scope) : List Level := s.level :: s.ancestors

/-- How many levels lie around it. -/
def depth (s : Scope) : Nat := s.ancestors.length

/-- The scope it is nested in. -/
def parent? (s : Scope) : Option Scope :=
  match s.ancestors with
  | [] => none
  | level :: ancestors => some ⟨s.hash, level, ancestors⟩

/-! ## Looking up -/

/-- The condition a name stands for: that of the nearest level. -/
def lookup? (s : Scope) (name : String) : Option NamedCondition :=
  s.levels.findSome? (·.condition? name)

/-- The id of a hook brought in by any level. -/
def hookId? (s : Scope) (text : String) : Option String :=
  s.levels.findSome? (·.hookId? text)

/-- What an id was made for. -/
def owner? (s : Scope) (id : String) : Option Owner :=
  s.levels.findSome? (·.owner? id)

end Scope

end VarLogic
