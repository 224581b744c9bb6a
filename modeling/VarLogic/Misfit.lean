/-
Why a document value does not have the shape it should have. The wording is
the same for conditions, configurations and props.
-/
import VarLogic.Json.Writer
import VarLogic.Text.Quoted

namespace VarLogic

inductive Misfit where
  | wrongType (found : Json.Value) (expected : String)
  | wrongValue (found : Json.Value) (expected : String)
  | unknownField (name : String) (known : List String)
  | unknownVariant (name : String) (known : List String)
  | duplicateField (name : String)
  | emptyCondition
  | mixedOperators (first second : String)
  | noCssForm (property : String)
  /-- A variant is neither a name nor a single member. -/
  | notAVariant
  /-- An array in the place of a record has more items than the record fields. -/
  | surplusItems
deriving Repr

namespace Misfit

/-- A value in a few words. -/
def describe : Json.Value → String
  | .null => "null"
  | .boolean true => "boolean `true`"
  | .boolean false => "boolean `false`"
  | .number (.integer n) => "integer `" ++ String.ofList (Json.integerChars n) ++ "`"
  | .number (.double x) => "floating point `" ++ x.written Json.numberStyle ++ "`"
  | .string s => "string " ++ Text.quoted s
  | .array _ => "sequence"
  | .object _ => "map"

/-- Names to choose from. -/
def alternatives : List String → String
  | [] => "no name"
  | [a] => "`" ++ a ++ "`"
  | [a, b] => "`" ++ a ++ "` or `" ++ b ++ "`"
  | names => "one of " ++ String.intercalate ", " (names.map fun a => "`" ++ a ++ "`")

def message : Misfit → String
  | wrongType found expected => "invalid type: " ++ describe found ++ ", expected " ++ expected
  | wrongValue found expected => "invalid value: " ++ describe found ++ ", expected " ++ expected
  | unknownField name known => "unknown field `" ++ name ++ "`, expected " ++ alternatives known
  | unknownVariant name known =>
    "unknown variant `" ++ name ++ "`, expected " ++ alternatives known
  | duplicateField name => "duplicate field `" ++ name ++ "`"
  | emptyCondition => "empty condition object"
  | mixedOperators first second => "condition mixes `" ++ first ++ "` with `" ++ second ++ "`"
  | noCssForm property => "`" ++ property ++ "` has no CSS value"
  | notAVariant => "expected value"
  | surplusItems => "trailing characters"

end Misfit

end VarLogic
