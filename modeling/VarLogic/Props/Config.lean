/-
What is configured once for all uses of style props: the value of a property
that nothing else sets, the props that stand for several properties, and the
style below all props.
-/
import VarLogic.Document
import VarLogic.Props.CssForm
import VarLogic.Props.InlineStyle

namespace VarLogic.Props

open Json (Value)

/-! ## Fallbacks -/

/-- The value of a conditional property without a base value. -/
inductive Fallback where
  /-- Back to the previous cascade layer. -/
  | revertLayer
  | unset
deriving DecidableEq, Repr

namespace Fallback

def keyword : Fallback → String
  | revertLayer => "revert-layer"
  | unset => "unset"

def ofKeyword (name : String) : Except Misfit Fallback :=
  if name = "revert-layer" then .ok revertLayer
  else if name = "unset" then .ok unset
  else .error (.unknownVariant name ["revert-layer", "unset"])

/-- A fallback is its keyword, or an object with the keyword as its one key and
no content. -/
def ofValue (dialect : Dialect) : Value → Except Misfit Fallback
  | .string name => ofKeyword name
  | .object ((name, content) :: others) => do
    let fallback ← ofKeyword name
    dialect.unit content
    if others.isEmpty then return fallback else .error .notAVariant
  | _ => .error .notAVariant

end Fallback

/-! ## Expansions -/

/-- The properties that a prop sets to which values. -/
abbrev Expansion := String → Value → List (String × Value)

/-- Every prop sets the property of its own name. -/
def identity : Expansion := fun prop value => [(prop, value)]

/-- Props that stand for several properties, the latest first. -/
structure Aliases where
  entries : List (String × List String) := []
deriving Repr

namespace Aliases

/-- Adds a prop; what it stood for before is forgotten. -/
def insert (aliases : Aliases) (prop : String) (properties : List String) : Aliases :=
  ⟨(prop, properties) :: aliases.entries⟩

/-- A prop sets every property it stands for to its value. -/
def expand (aliases : Aliases) : Expansion := fun prop value =>
  match aliases.entries.lookup prop with
  | some properties => properties.map (·, value)
  | none => identity prop value

def member (aliases : Aliases) : String × Value → Except Misfit Aliases
  | (prop, v) => do return aliases.insert prop (← Decode.strings v)

def ofValue : Value → Except Misfit Aliases
  | .object members => members.foldlM member {}
  | v => .error (.wrongType v "a map")

end Aliases

/-! ## Styles in documents -/

/-- One member of a style; its value must have a CSS form. -/
def styleMember (style : InlineStyle) : String × Value → Except Misfit InlineStyle
  | (property, v) =>
    match cssForm? property v with
    | none => .error (.noCssForm property)
    | some css => .ok (style.set property css)

def styleOfValue : Value → Except Misfit InlineStyle
  | .object members => members.foldlM styleMember {}
  | v => .error (.wrongType v "a map of CSS properties to strings or numbers")

/-! ## Configurations -/

structure Config where
  fallback : Fallback := .revertLayer
  aliases : Aliases := {}
  defaultStyle : InlineStyle := {}

namespace Config

/-- The fields that were written. -/
structure Fields where
  fallback : Option Fallback := none
  aliases : Option Aliases := none
  defaultStyle : Option InlineStyle := none

/-- Fields not written have their defaults. -/
def Fields.config (f : Fields) : Config where
  fallback := f.fallback.getD .revertLayer
  aliases := f.aliases.getD {}
  defaultStyle := f.defaultStyle.getD {}

/-- One member; there are no other fields. -/
def Fields.member (dialect : Dialect) (f : Fields) : String × Value → Except Misfit Fields
  | ("fallback", v) => do
    return { f with fallback := ← Decode.once "fallback" (Fallback.ofValue dialect) f.fallback v }
  | ("aliases", v) => do
    return { f with aliases := ← Decode.once "aliases" Aliases.ofValue f.aliases v }
  | ("default_style", v) => do
    return { f with defaultStyle := ← Decode.once "default_style" styleOfValue f.defaultStyle v }
  | (name, _) => .error (.unknownField name ["fallback", "aliases", "default_style"])

/-- The configuration a document value describes. -/
def ofValue (dialect : Dialect) : Value → Except Misfit Config
  | .object members => do return (← members.foldlM (Fields.member dialect) {}).config
  | .array [] => return {}
  | .array [f] => do return { fallback := ← Fallback.ofValue dialect f }
  | .array [f, a] => do
    let fallback ← Fallback.ofValue dialect f
    let aliases ← Aliases.ofValue a
    return { fallback, aliases }
  | .array (f :: a :: s :: surplus) => do
    let fallback ← Fallback.ofValue dialect f
    let aliases ← Aliases.ofValue a
    let defaultStyle ← styleOfValue s
    dialect.checkSurplus surplus
    return { fallback, aliases, defaultStyle }
  | v => .error (.wrongType v "struct BoxConfig")

/-- The configuration of a JSON text. -/
def ofJson (text : String) : Except DocumentError Config :=
  readJson id (ofValue .json) text

/-- The configuration of a TOML text. -/
def ofToml (text : String) : Except DocumentError Config :=
  readToml (ofValue .toml) text

end Config

end VarLogic.Props
