/-
What props mean. A style prop sets the properties it expands to, always or
while its condition holds, and sets nothing where a value has no CSS form. Of
all that sets a property the last conditional setting whose condition holds
counts, then the last unconditional one, then the default style, and then the
fallback.
-/
import VarLogic.Props.Resolve

namespace VarLogic

/-- A style as the declarations of an element. -/
def InlineStyle.declarations (style : InlineStyle) : List Declaration :=
  style.entries.map fun (property, value) => ⟨property, value⟩

namespace Props

open Json (Value)

/-- A property with the text it is set to. -/
structure Setting where
  /-- The condition while which it is set, if there is one. -/
  condition : Option String
  property : String
  css : String
deriving DecidableEq, Repr

/-- What an expansion sets: an output without a CSS form sets nothing. -/
def Setting.ofOutputs (condition : Option String) (outputs : List (String × Value)) :
    List Setting :=
  outputs.filterMap fun (property, v) =>
    (cssForm? property v).map fun css => ⟨condition, property, css⟩

namespace Styler

/-- What a prop sets: nothing, if it is not a style prop. -/
def settingsOf (styler : Styler) (scope : Scope) (prop : String × Value) : List Setting :=
  match route scope prop.1 with
  | .forward => []
  | .initial name => Setting.ofOutputs none (styler.expansion name prop.2)
  | .conditional condition name => Setting.ofOutputs (some condition) (styler.expansion name prop.2)

/-- What props set, in their order. -/
def settings (styler : Styler) (scope : Scope) (props : List (String × Value)) : List Setting :=
  props.flatMap (styler.settingsOf scope)

/-- What the default style sets. -/
def defaults (styler : Styler) : List Setting :=
  styler.defaultStyle.entries.map fun (property, css) => ⟨none, property, css⟩

/-- All that sets properties. -/
def sources (styler : Styler) (scope : Scope) (props : List (String × Value)) : List Setting :=
  styler.defaults ++ styler.settings scope props

/-- The text a property has where the conditions in `holds` hold. -/
def meaning (styler : Styler) (scope : Scope) (holds : String → Bool)
    (props : List (String × Value)) (property : String) : String :=
  let settings := (styler.settings scope props).filter (·.property = property)
  let conditional := settings.filter (·.condition.any holds)
  let initial := settings.filter (·.condition.isNone)
  let default := styler.defaults.filter (·.property = property)
  ((conditional.getLast?.or (initial.getLast?.or default.getLast?)).map (·.css)).getD
    styler.fallback.keyword

end Styler

end Props

end VarLogic
