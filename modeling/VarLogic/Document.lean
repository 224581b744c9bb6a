/-
Decoding documents. A document value is decoded in the order in which it was
written, and the first misfit is the error. JSON text is read as a tree first,
because what a decoder skips unread need not have a value.
-/
import VarLogic.Json.Reader
import VarLogic.Misfit
import VarLogic.Toml.Reader

namespace VarLogic

open Json (Value Raw)

/-- Why a document cannot be used. Only a misfit in a text that is well formed
throughout is described. -/
inductive DocumentError where
  /-- There is no such file, or it is not UTF-8. -/
  | unreadable
  | malformed
  | misfit (why : Misfit)
deriving Repr

/-- What the document formats decide differently. -/
structure Dialect where
  /-- What stands for the content of a variant that has none. -/
  unit : Value → Except Misfit Unit
  /-- An array that stands for a record may have more items than the record
  has fields. -/
  allowsSurplus : Bool

namespace Dialect

/-- JSON: `null` for no content. -/
def json : Dialect where
  unit
    | .null => .ok ()
    | v => .error (.wrongType v "unit")
  allowsSurplus := false

/-- TOML, which has no `null`: an empty table or array for no content. -/
def toml : Dialect where
  unit
    | .object [] => .ok ()
    | .array [] => .ok ()
    | v => .error (.wrongType v "an empty table")
  allowsSurplus := true

/-- Checks the items left over by a record. -/
def checkSurplus (dialect : Dialect) (surplus : List Value) : Except Misfit Unit :=
  if surplus.isEmpty || dialect.allowsSurplus then .ok () else .error .surplusItems

end Dialect

namespace Decode

def boolean : Value → Except Misfit Bool
  | .boolean b => .ok b
  | v => .error (.wrongType v "a boolean")

/-- A number of things: an integer that is not negative. -/
def size : Value → Except Misfit Nat
  | .number (.integer n) =>
    if n < 0 then .error (.wrongValue (.number (.integer n)) "usize") else .ok n.toNat
  | v => .error (.wrongType v "usize")

def string : Value → Except Misfit String
  | .string s => .ok s
  | v => .error (.wrongType v "a string")

/-- An array of strings. -/
def strings : Value → Except Misfit (List String)
  | .array items => items.mapM string
  | v => .error (.wrongType v "a sequence")

/-- The member of a field, which may occur once. -/
def once {α : Type} (name : String) (decode : Value → Except Misfit α) (seen : Option α)
    (v : Value) : Except Misfit (Option α) :=
  match seen with
  | some _ => .error (.duplicateField name)
  | none => some <$> decode v

end Decode

/-- Decodes JSON text. `skim` leaves out what the decoder skips unread. -/
def readJson {α : Type} (skim : Raw → Raw) (decode : Value → Except Misfit α) (text : String) :
    Except DocumentError α :=
  match Raw.ofText? text with
  | none => .error .malformed
  | some tree =>
    match (skim tree).value? Json.maxDepth with
    | none => .error .malformed
    | some v =>
      match decode v with
      | .ok a => .ok a
      | .error why =>
        .error (if (tree.value? Json.maxDepth).isSome then .misfit why else .malformed)

/-- Decodes TOML text. -/
def readToml {α : Type} (decode : Value → Except Misfit α) (text : String) :
    Except DocumentError α :=
  match Toml.ofText? text with
  | none => .error .malformed
  | some v => (decode v).mapError .misfit

end VarLogic
