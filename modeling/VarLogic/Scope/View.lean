/-
What a scope gives: the names in sight, toggles, formulas and value texts, the
sheet that drives its toggles, and the declarations that go inline.
-/
import VarLogic.Scope.Build
import VarLogic.Sheet.Basic

namespace VarLogic

/-! ## Levels -/

namespace Level

/-- The names in sight from the levels given nearest first: the outer ones, and
then those an inner level adds. -/
def namesInSight : List Level → List String
  | [] => []
  | level :: outer =>
    let seen := namesInSight outer
    seen ++ level.names.filter (· ∉ seen)

/-- The inline declarations of nested levels, outermost first; those of the
outermost level stand in its sheet. -/
def inlineDeclarations : List Level → List Declaration
  | [] => []
  | [_] => []
  | level :: outer => inlineDeclarations outer ++ level.declarations

/-- The pairs and rules of the hooks a level brought in. -/
def hookSheet (level : Level) : Sheet :=
  level.hooks.foldl (fun sheet entry => sheet.addHook entry.hook entry.id) .empty

/-- A level's own part of the sheet; the outermost level adds the declarations
of its composite nodes. -/
def sheet (level : Level) (isOutermost : Bool) : Sheet :=
  if isOutermost then level.declarations.foldl Sheet.addDefault level.hookSheet
  else level.hookSheet

/-- The sheet of the levels given nearest first. -/
def sheetOf : List Level → Sheet
  | [] => .empty
  | level :: outer => (sheetOf outer).merge (level.sheet outer.isEmpty)

end Level

namespace Scope

/-! ## Names -/

/-- Every name in sight, outermost level first. -/
def names (s : Scope) : List String := Level.namesInSight s.levels

def contains (s : Scope) (name : String) : Bool := (s.lookup? name).isSome

/-- The definition a name stands for. -/
def definition? (s : Scope) (name : String) : Option (Condition String) :=
  (s.lookup? name).map (·.definition)

/-- The toggle of a name: none for an unknown name, and none for a condition
without any hook. -/
def toggle? (s : Scope) (name : String) : Option String :=
  (s.lookup? name).bind (·.toggle?)

/-! ## Formulas and values -/

/-- The formula of a name over hook ids; none for a condition without any hook. -/
def formula (s : Scope) (name : String) : Except Error (Option (Formula String)) :=
  match s.lookup? name with
  | none => .error (.unknownCondition name)
  | some c => .ok (c.compiled.map (·.formula))

/-- The value text that is `ifTrue` while the condition holds and `ifFalse`
otherwise; a condition without any hook never holds. -/
def valueText (s : Scope) (name ifTrue ifFalse : String) : Except Error String := do
  match ← s.formula name with
  | none => return ifFalse
  | some f => return f.valueText ifTrue ifFalse

/-! ## Sheets -/

/-- What goes inline on an element that uses the scope. -/
def declarations (s : Scope) : List Declaration := Level.inlineDeclarations s.levels

/-- What the document needs once. -/
def sheet (s : Scope) : Sheet := Level.sheetOf s.levels

end Scope

end VarLogic
