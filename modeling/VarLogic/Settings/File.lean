/-
Settings in files. The extension of a file's name decides its format, and a
file that is missing or not UTF-8 cannot be read at all.
-/
import VarLogic.Settings

namespace VarLogic

/-- What follows the last point of a file's name, if anything precedes that
point. -/
def extension? (name : String) : Option String :=
  match name.toList.reverse.span (· ≠ '.') with
  | (extension, _ :: _ :: _) =>
    if name = ".." then none else some (String.ofList extension.reverse)
  | _ => none

/-- Names of TOML files end in `.toml`, in letters of either case. -/
def isTomlName (name : String) : Bool :=
  match extension? name with
  | some extension => extension.toLower == "toml"
  | none => false

/-- The settings of a file, given what it contains; whatever is not TOML by its
name is JSON. -/
def Settings.ofFile (name : String) (contents : Option ByteArray) :
    Except DocumentError Settings :=
  match contents.bind String.fromUTF8? with
  | none => .error .unreadable
  | some text => if isTomlName name then ofToml text else ofJson text

end VarLogic
