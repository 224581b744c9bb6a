/-
Inline styles: properties with their values, in the order in which they apply.
No property occurs twice.
-/
namespace VarLogic

structure InlineStyle where
  entries : List (String × String) := []
deriving DecidableEq, Repr

namespace InlineStyle

def empty : InlineStyle := {}

/-- The value of a property. -/
def get? (style : InlineStyle) (property : String) : Option String :=
  style.entries.lookup property

def size (style : InlineStyle) : Nat := style.entries.length

def isEmpty (style : InlineStyle) : Bool := style.entries.isEmpty

/-- Replaces the value of a property in place, or appends the property. -/
def setEntry (property value : String) : List (String × String) → List (String × String)
  | [] => [(property, value)]
  | (p, v) :: rest =>
    if p = property then (property, value) :: rest else (p, v) :: setEntry property value rest

/-- Sets a property, which keeps its place if it is there. -/
def set (style : InlineStyle) (property value : String) : InlineStyle :=
  ⟨setEntry property value style.entries⟩

/-- Takes the first entry of a property out, and gives its value. -/
def removeEntry (property : String) :
    List (String × String) → Option String × List (String × String)
  | [] => (none, [])
  | (p, v) :: rest =>
    if p = property then (some v, rest)
    else ((removeEntry property rest).1, (p, v) :: (removeEntry property rest).2)

/-- Takes a property out, and gives the value it had. -/
def remove (style : InlineStyle) (property : String) : Option String × InlineStyle :=
  ((removeEntry property style.entries).1, ⟨(removeEntry property style.entries).2⟩)

/-- Sets a property and puts it after all others. -/
def setLast (style : InlineStyle) (property value : String) : InlineStyle :=
  ⟨(style.remove property).2.entries ++ [(property, value)]⟩

/-- The text of a `style` attribute. -/
def toCss (style : InlineStyle) : String :=
  String.intercalate " " (style.entries.map fun (p, v) => p ++ ": " ++ v ++ ";")

end InlineStyle

end VarLogic
