/-
The CSS form of a prop's value. A string is its own form; a number is a length
in pixels unless its property takes plain numbers; nothing else has one.
-/
import VarLogic.Json.Writer

namespace VarLogic.Props

/-- The properties whose numbers have no unit. -/
def unitless : List String := [
  "animation-iteration-count", "aspect-ratio", "border-image-outset", "border-image-slice",
  "border-image-width", "box-flex", "box-flex-group", "box-ordinal-group", "column-count",
  "columns", "flex", "flex-grow", "flex-positive", "flex-shrink", "flex-negative", "flex-order",
  "grid-area", "grid-row", "grid-row-end", "grid-row-span", "grid-row-start", "grid-column",
  "grid-column-end", "grid-column-span", "grid-column-start", "font-weight", "line-clamp",
  "line-height", "opacity", "order", "orphans", "scale", "tab-size", "widows", "z-index", "zoom",
  "fill-opacity", "flood-opacity", "stop-opacity", "stroke-dasharray", "stroke-dashoffset",
  "stroke-miterlimit", "stroke-opacity", "stroke-width", "-moz-animation-iteration-count",
  "-moz-box-flex", "-moz-box-flex-group", "-moz-line-clamp", "-ms-animation-iteration-count",
  "-ms-flex", "-ms-zoom", "-ms-flex-grow", "-ms-flex-negative", "-ms-flex-order",
  "-ms-flex-positive", "-ms-flex-shrink", "-ms-grid-column", "-ms-grid-column-span",
  "-ms-grid-row", "-ms-grid-row-span", "-webkit-animation-iteration-count", "-webkit-box-flex",
  "-webkit-box-flex-group", "-webkit-box-ordinal-group", "-webkit-column-count",
  "-webkit-columns", "-webkit-flex", "-webkit-flex-grow", "-webkit-flex-positive",
  "-webkit-flex-shrink", "-webkit-line-clamp"]

/-- Numbers of the property have no unit; those of custom properties never do. -/
def isUnitless (property : String) : Bool :=
  ['-', '-'].isPrefixOf property.toList || unitless.contains property

/-- Doubles in CSS: never an exponent, no point in integral ones. -/
def numberStyle : Decimal.Style where
  tie := .up
  positional := none
  pointZero := false

/-- A number without its unit. -/
def numberText : Json.Number → String
  | .integer n => String.ofList (Json.integerChars n)
  | .double x => x.written numberStyle

/-- The CSS form of a value, if it has one. -/
def cssForm? (property : String) : Json.Value → Option String
  | .string s => some s
  | .number n => some (numberText n ++ if isUnitless property then "" else "px")
  | _ => none

end VarLogic.Props
