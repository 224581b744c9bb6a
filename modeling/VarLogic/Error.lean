/-
What can be wrong with definitions. All of it shows while a scope is built;
once it is built, its value texts and its sheet cannot fail.
-/
import VarLogic.Hook.Parse
import VarLogic.Misfit

namespace VarLogic

/-- Why a name cannot be given to a condition. -/
inductive NameFault where
  | empty
  | noLetter
  | badCharacter
  | reserved
deriving DecidableEq, Repr

def NameFault.message : NameFault → String
  | empty => "name is empty"
  | noLetter => "must start with a letter"
  | badCharacter => "must contain only letters and digits"
  | reserved => "name is reserved"

/-- What an id was made for. -/
inductive Owner where
  | hook (text : String)
  | condition (name : String)
deriving DecidableEq, Repr

def Owner.describe : Owner → String
  | hook text => "hook '" ++ text ++ "'"
  | condition name => "condition '" ++ name ++ "'"

inductive Error where
  | invalidCondition (why : Misfit)
  | invalidName (name : String) (why : NameFault)
  | invalidHook (text : String) (why : HookFault)
  | unknownCondition (name : String)
  | duplicateCondition (name : String)
  /-- Two sources have the same id. -/
  | idCollision (id : String) (first second : Owner)
deriving Repr

def Error.message : Error → String
  | invalidCondition why => "Invalid condition: " ++ why.message
  | invalidName name why => "Invalid condition name '" ++ name ++ "': " ++ why.message
  | invalidHook text why => "Invalid hook '" ++ text ++ "': " ++ why.message
  | unknownCondition name => "Unknown condition '" ++ name ++ "'"
  | duplicateCondition name => "Condition '" ++ name ++ "' is defined more than once"
  | idCollision id first second =>
    "Identifier '" ++ id ++ "' generated for both " ++ first.describe ++ " and " ++ second.describe

end VarLogic
