/-
Definitions: named conditions in the order in which they are written. A name
may occur twice here; a scope objects to it.
-/
import VarLogic.Condition.Json
import VarLogic.Error
import VarLogic.ShortId

namespace VarLogic

abbrev Definitions := List (String × Condition String)

namespace Definitions

/-- The definitions as one object, a member each. -/
def toValue (definitions : Definitions) : Json.Value :=
  .object (definitions.map fun (name, c) => (name, c.toValue))

/-- The first condition of a name. -/
def get? (definitions : Definitions) (name : String) : Option (Condition String) :=
  definitions.lookup name

/-- Names that mean something else in front of a colon. -/
def reservedNames : List String := ["box", "initial"]

/-- A condition's name starts with a letter, holds letters and digits only,
and is not reserved. -/
def checkName (name : String) : Except Error Unit :=
  match name.toList with
  | [] => .error (.invalidName name .empty)
  | c :: cs =>
    if !c.isAlpha then .error (.invalidName name .noLetter)
    else if !cs.all Char.isAlphanum then .error (.invalidName name .badCharacter)
    else if name ∈ reservedNames then .error (.invalidName name .reserved)
    else .ok ()

end Definitions

/-- The id of a document value: that of its compact text. -/
def ShortId.ofValue (v : Json.Value) : String := ShortId.ofText v.compact

end VarLogic
