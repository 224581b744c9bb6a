/-
Toggle pairs. A toggle `x` owns the custom properties `--x-0` and `--x-1`. On
every element exactly one of the two is `initial`, which no `var()` accepts,
and the other is empty: `--x-1` is `initial` while the toggle is on, `--x-0`
while it is off.
-/
namespace VarLogic

/-- A custom property declaration; the value may be empty. -/
structure Declaration where
  property : String
  value : String
deriving DecidableEq, Repr

namespace Toggle

/-- One side of a pair. -/
def property (id : String) (on : Bool) : String :=
  "--" ++ id ++ (if on then "-1" else "-0")

/-- A reference to one side of a pair. -/
def reference (id : String) (on : Bool) : String :=
  "var(" ++ property id on ++ ")"

/-- A reference to one side of a pair, with a fallback for the case that it
is `initial`. -/
def referenceOr (id : String) (on : Bool) (fallback : String) : String :=
  "var(" ++ property id on ++ ", " ++ fallback ++ ")"

end Toggle

end VarLogic
