/-
Resolving props. `initial:width` sets a property, `hover:width` sets it while
the condition `hover` holds, and any other prop is forwarded. A conditional
prop wraps its value and the property's value so far into one text and moves
the property to the end, so of two conditional props the later one wins.
-/
import VarLogic.Props.Config
import VarLogic.Scope.View

namespace VarLogic.Props

open Json (Value)

/-- A key in its parts: before the first colon and after it, if there is one. -/
def splitKey? (key : String) : Option (String × String) :=
  let cs := key.toList
  match cs.dropWhile (· ≠ ':') with
  | [] => none
  | _ :: rest => some (String.ofList (cs.takeWhile (· ≠ ':')), String.ofList rest)

/-- The prefix of props that apply unconditionally. -/
def initialPrefix : String := "initial"

/-- The prefix is `initial`, whatever comes after. -/
def isInitial (key : String) : Bool :=
  match splitKey? key with
  | some (first, _) => first == initialPrefix
  | none => false

/-- What becomes of a prop. -/
inductive Route where
  /-- It is not a style prop. -/
  | forward
  /-- It sets properties. -/
  | initial (prop : String)
  /-- It sets properties while the condition holds. -/
  | conditional (condition prop : String)
deriving DecidableEq, Repr

/-- A style prop has a property name behind its colon, and before it `initial`
or the name of a condition in sight. -/
def route (scope : Scope) (key : String) : Route :=
  match splitKey? key with
  | none => .forward
  | some (first, prop) =>
    if prop = "" then .forward
    else if first = initialPrefix then .initial prop
    else if scope.contains first then .conditional first prop
    else .forward

/-- Props that apply unconditionally come first; otherwise the order stays. -/
def ordered (props : List (String × Value)) : List (String × Value) :=
  props.filter (fun p => isInitial p.1) ++ props.filter (fun p => !isInitial p.1)

/-- How props are turned into a style. -/
structure Styler where
  fallback : Fallback := .revertLayer
  defaultStyle : InlineStyle := {}
  expansion : Expansion := identity

/-- The styler of a configuration. -/
def Styler.ofConfig (config : Config) : Styler where
  fallback := config.fallback
  defaultStyle := config.defaultStyle
  expansion := config.aliases.expand

structure Resolved where
  /-- The inline style, in order of application. -/
  style : InlineStyle
  /-- The props that are not style props. -/
  forward : List (String × Value) := []

namespace Styler

/-- Sets a property, if its value has a CSS form. -/
def setInitial (style : InlineStyle) : String × Value → InlineStyle
  | (property, v) =>
    match cssForm? property v with
    | none => style
    | some css => style.set property css

/-- Wraps a property's value into a conditional one, if the new value has a CSS
form. -/
def setConditional (styler : Styler) (scope : Scope) (condition : String) (style : InlineStyle) :
    String × Value → Except Error InlineStyle
  | (property, v) =>
    match cssForm? property v with
    | none => .ok style
    | some css => do
      let current := (style.get? property).getD styler.fallback.keyword
      return style.setLast property (← scope.valueText condition css current)

/-- What is there before any prop: the toggles that go inline, and the default
style. -/
def base (styler : Styler) (scope : Scope) : InlineStyle :=
  let toggles := scope.declarations.foldl (fun style d => style.set d.property d.value) .empty
  styler.defaultStyle.entries.foldl (fun style (p, v) => style.set p v) toggles

/-- Applies one prop. -/
def apply (styler : Styler) (scope : Scope) (r : Resolved) (prop : String × Value) :
    Except Error Resolved :=
  match route scope prop.1 with
  | .forward => .ok { r with forward := r.forward ++ [prop] }
  | .initial name =>
    .ok { r with style := (styler.expansion name prop.2).foldl setInitial r.style }
  | .conditional condition name => do
    let style ← (styler.expansion name prop.2).foldlM (styler.setConditional scope condition) r.style
    return { r with style }

/-- The inline style of props, and the props to forward. -/
def resolve (styler : Styler) (scope : Scope) (props : List (String × Value)) :
    Except Error Resolved :=
  (ordered props).foldlM (styler.apply scope) { style := styler.base scope }

end Styler

end VarLogic.Props
