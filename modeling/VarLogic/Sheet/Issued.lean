/-
Which sheets a document has been given. A sheet is handed out once, however
many components ask for it.
-/
import VarLogic.Sheet.Basic

namespace VarLogic

/-- The keys of the sheets handed out. -/
structure Issued where
  keys : List String := []
deriving DecidableEq, Repr

namespace Issued

def empty : Issued := {}

def contains (issued : Issued) (sheet : Sheet) : Bool := issued.keys.contains sheet.key

def size (issued : Issued) : Nat := issued.keys.length

/-- Hands out a sheet as CSS, unless it is empty or was handed out before. -/
def insert (issued : Issued) (sheet : Sheet) (layout : Layout) : Option String × Issued :=
  if sheet.isEmpty || issued.contains sheet then (none, issued)
  else (some (sheet.render layout), ⟨issued.keys ++ [sheet.key]⟩)

end Issued

end VarLogic
