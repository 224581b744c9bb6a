/-
The settings of a project: the layout of its CSS, and the definitions of its
outermost scope. They are read from a JSON or TOML document with the fields
`format` and `conditions`, or from an array of these two.
-/
import VarLogic.Definitions
import VarLogic.Document
import VarLogic.Sheet.Layout

namespace VarLogic

open Json (Value Raw)

/-! ## Layouts -/

namespace Layout

/-- The fields of a layout that were written. -/
structure Fields where
  pretty : Option Bool := none
  indent : Option Nat := none

/-- Fields not written have their defaults. -/
def Fields.layout (f : Fields) : Layout where
  pretty := f.pretty.getD Layout.compact.pretty
  indent := f.indent.getD Layout.compact.indent

/-- One member; a member of another name is skipped. -/
def Fields.member (f : Fields) : String × Value → Except Misfit Fields
  | ("pretty", v) => do return { f with pretty := ← Decode.once "pretty" Decode.boolean f.pretty v }
  | ("indent", v) => do return { f with indent := ← Decode.once "indent" Decode.size f.indent v }
  | _ => return f

/-- The layout a document value describes. -/
def ofValue (dialect : Dialect) : Value → Except Misfit Layout
  | .object members => do return (← members.foldlM Fields.member {}).layout
  | .array [] => return {}
  | .array [p] => do return { pretty := ← Decode.boolean p }
  | .array (p :: i :: surplus) => do
    let pretty ← Decode.boolean p
    let indent ← Decode.size i
    dialect.checkSurplus surplus
    return { pretty, indent }
  | v => .error (.wrongType v "struct Format")

/-- Leaves out the members that are skipped unread. -/
def skim : Raw → Raw
  | .object members => .object (members.filter fun (key, _) =>
      match key with
      | none => true
      | some key => key = "pretty" || key = "indent")
  | tree => tree

end Layout

/-! ## Definitions -/

namespace Definitions

/-- The definitions of members, in order. -/
def ofMembers : List (String × Value) → Except Misfit Definitions
  | [] => return []
  | (name, v) :: members => do
    let c ← Condition.ofValue v
    return (name, c) :: (← ofMembers members)

/-- The definitions a document value describes. -/
def ofValue : Value → Except Misfit Definitions
  | .object members => ofMembers members
  | v => .error (.wrongType v "a map of condition names to conditions")

end Definitions

/-! ## Settings -/

structure Settings where
  layout : Layout := {}
  definitions : Definitions := []

namespace Settings

/-- The fields of settings that were written. -/
structure Fields where
  layout : Option Layout := none
  definitions : Option Definitions := none

/-- Fields not written have their defaults. -/
def Fields.settings (f : Fields) : Settings where
  layout := f.layout.getD {}
  definitions := f.definitions.getD []

/-- One member; there are no other fields. -/
def Fields.member (dialect : Dialect) (f : Fields) : String × Value → Except Misfit Fields
  | ("format", v) => do
    return { f with layout := ← Decode.once "format" (Layout.ofValue dialect) f.layout v }
  | ("conditions", v) => do
    return { f with definitions := ← Decode.once "conditions" Definitions.ofValue f.definitions v }
  | (name, _) => .error (.unknownField name ["format", "conditions"])

/-- The settings a document value describes. -/
def ofValue (dialect : Dialect) : Value → Except Misfit Settings
  | .object members => do return (← members.foldlM (Fields.member dialect) {}).settings
  | .array [] => return {}
  | .array [l] => do return { layout := ← Layout.ofValue dialect l }
  | .array (l :: d :: surplus) => do
    let layout ← Layout.ofValue dialect l
    let definitions ← Definitions.ofValue d
    dialect.checkSurplus surplus
    return { layout, definitions }
  | v => .error (.wrongType v "struct StyleConfig")

/-- Leaves out what is skipped unread: members of the layout that are no
fields of it. -/
def skim : Raw → Raw
  | .object members => .object (members.map fun (key, tree) =>
      (key, if key = some "format" then Layout.skim tree else tree))
  | .array (layout :: rest) => .array (Layout.skim layout :: rest)
  | tree => tree

/-- The settings of a JSON text. -/
def ofJson (text : String) : Except DocumentError Settings :=
  readJson skim (ofValue .json) text

/-- The settings of a TOML text. -/
def ofToml (text : String) : Except DocumentError Settings :=
  readToml (ofValue .toml) text

end Settings

end VarLogic
