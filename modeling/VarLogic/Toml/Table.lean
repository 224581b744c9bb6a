/-
Tables under construction. A table may be filled by its header, by dotted
keys, or not have been written itself but only one inside it; which of these
it is decides what may still be added. Entries keep the order in which they
were made.
-/
import VarLogic.Json.Value

namespace VarLogic.Toml

open Json (Value)

/-- How a table came about. -/
inductive Kind where
  /-- By its header. -/
  | header
  /-- By the header of a table inside it. -/
  | implied
  /-- By dotted keys. -/
  | dotted
deriving DecidableEq, Repr

inductive Node where
  /-- A value, to which nothing can be added. -/
  | value (v : Value)
  | table (kind : Kind) (entries : List (String × Node))
  /-- An array of tables; each is a node of its own. -/
  | tables (items : List Node)

abbrev Entries := List (String × Node)

/-- Replaces the node of a key in place. -/
def replace (key : String) (node : Node) : Entries → Entries
  | [] => []
  | (k, n) :: rest => if k = key then (key, node) :: rest else (k, n) :: replace key node rest

/-- Applies a change to the entries of the last of some tables. -/
def changeLast (change : Entries → Option Entries) (items : List Node) : Option (List Node) :=
  match items.getLast? with
  | some (.table kind entries) => do some (items.dropLast ++ [.table kind (← change entries)])
  | _ => none

/-- Adds a value under a dotted key, whose parts before the last are given
first. The table that takes the value must come from dotted keys itself, unless
there are no such parts, and a table with a header of its own stays closed. -/
def insertValue (v : Value) (key : String) : List String → Entries → Option Entries
  | [], entries =>
    match entries.lookup key with
    | some _ => none
    | none => some (entries ++ [(key, .value v)])
  | part :: parts, entries =>
    match entries.lookup part with
    | none => do some (entries ++ [(part, .table .dotted (← insertValue v key parts []))])
    | some (.value _) => none
    | some (.table .header _) => none
    | some (.table .implied inner) =>
      if parts.isEmpty then none
      else do some (replace part (.table .implied (← insertValue v key parts inner)) entries)
    | some (.table .dotted inner) => do
      some (replace part (.table .dotted (← insertValue v key parts inner)) entries)
    | some (.tables items) =>
      if parts.isEmpty then none
      else do some (replace part (.tables (← changeLast (insertValue v key parts) items)) entries)

/-- Applies a change to the entries of the table that a header path leads to,
making implied tables on the way. -/
def changeAt (change : Entries → Option Entries) : List String → Entries → Option Entries
  | [], entries => change entries
  | part :: parts, entries =>
    match entries.lookup part with
    | none => do some (entries ++ [(part, .table .implied (← changeAt change parts []))])
    | some (.value _) => none
    | some (.table kind inner) => do
      some (replace part (.table kind (← changeAt change parts inner)) entries)
    | some (.tables items) => do
      some (replace part (.tables (← changeLast (changeAt change parts) items)) entries)

/-- Adds the table of a header. A table that was only implied so far keeps its
entries and moves to the end. -/
def addTable (key : String) (fill : Entries → Option Entries) (entries : Entries) :
    Option Entries :=
  let close (start rest : Entries) : Option Entries := do
    some (rest ++ [(key, .table .header (← fill start))])
  match entries.lookup key with
  | none => close [] entries
  | some (.table .implied inner) => close inner (entries.filter (·.1 ≠ key))
  | some _ => none

/-- Adds a table to the array of tables of a header. -/
def addToTables (key : String) (fill : Entries → Option Entries) (entries : Entries) :
    Option Entries := do
  let item := Node.table .header (← fill [])
  match entries.lookup key with
  | none => some (entries ++ [(key, .tables [item])])
  | some (.tables items) => some (replace key (.tables (items ++ [item])) entries)
  | some _ => none

/-! ## Values -/

mutual

/-- The document value of a node. -/
def Node.toValue : Node → Value
  | .value v => v
  | .table _ entries => .object (entryValues entries)
  | .tables items => .array (nodeValues items)
termination_by structural n => n

/-- The document values of nodes. -/
def nodeValues : List Node → List Value
  | [] => []
  | n :: ns => n.toValue :: nodeValues ns
termination_by structural ns => ns

/-- The members of entries. -/
def entryValues : List (String × Node) → List (String × Value)
  | [] => []
  | (key, n) :: rest => (key, n.toValue) :: entryValues rest
termination_by structural entries => entries

end

end VarLogic.Toml
