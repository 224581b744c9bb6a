/-
The layout of emitted CSS: everything on one line without blanks, or one
declaration a line with indentation.
-/
import VarLogic.Toggle

namespace VarLogic

structure Layout where
  /-- Blanks and line feeds are written. -/
  pretty : Bool := false
  /-- Spaces a level. -/
  indent : Nat := 2
deriving DecidableEq, Repr

namespace Layout

/-- Everything on one line. -/
def compact : Layout := {}

/-- For human readers. -/
def spacious : Layout := { pretty := true }

/-- Between a property and its value, and before a brace. -/
def space (layout : Layout) : String := if layout.pretty then " " else ""

/-- Between two lines. -/
def newline (layout : Layout) : String := if layout.pretty then "\n" else ""

/-- In front of a line. Its width is taken to be representable: the product of
indent and depth does not wrap. -/
def indentation (layout : Layout) (depth : Nat) : String :=
  if layout.pretty then String.ofList (List.replicate (layout.indent * depth) ' ') else ""

/-- One declaration. -/
def declaration (layout : Layout) (depth : Nat) (d : Declaration) : String :=
  layout.indentation depth ++ d.property ++ ":" ++ layout.space ++ d.value ++ ";"

/-- Declarations, one a line. -/
def declarations (layout : Layout) (depth : Nat) (ds : List Declaration) : String :=
  String.intercalate layout.newline (ds.map (layout.declaration depth))

/-- A selector and its declarations in braces. -/
def block (layout : Layout) (depth : Nat) (selector : String) (ds : List Declaration) : String :=
  layout.indentation depth ++ selector ++ layout.space ++ "\x7b" ++ layout.newline ++
    layout.declarations (depth + 1) ds ++ layout.newline ++ layout.indentation depth ++ "\x7d"

end Layout

end VarLogic
