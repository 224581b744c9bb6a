/-
What a value's text has in it: the tree that a reader makes of it, and how deep
containers lie in it.
-/
import VarLogic.Json.Reader

namespace VarLogic.Json

mutual

/-- The tree of a value's text. -/
def Value.raw : Value → Raw
  | .null => .null
  | .boolean b => .boolean b
  | .number n => .number (some n)
  | .string s => .string (some s)
  | .array items => .array (rawItems items)
  | .object members => .object (rawMembers members)
termination_by structural v => v

/-- The trees of items. -/
def rawItems : List Value → List Raw
  | [] => []
  | v :: vs => v.raw :: rawItems vs
termination_by structural vs => vs

/-- The trees of members. -/
def rawMembers : List (String × Value) → List (Option String × Raw)
  | [] => []
  | (key, v) :: ms => (some key, v.raw) :: rawMembers ms
termination_by structural ms => ms

end

mutual

/-- How deep the containers of a value lie. -/
def Value.nesting : Value → Nat
  | .array items => itemsNesting items + 1
  | .object members => membersNesting members + 1
  | _ => 0
termination_by structural v => v

/-- How deep containers lie in items. -/
def itemsNesting : List Value → Nat
  | [] => 0
  | v :: vs => max v.nesting (itemsNesting vs)
termination_by structural vs => vs

/-- How deep containers lie in members. -/
def membersNesting : List (String × Value) → Nat
  | [] => 0
  | (_, v) :: ms => max v.nesting (membersNesting ms)
termination_by structural ms => ms

end

/-- No number anywhere in a value. -/
inductive Value.NumberFree : Value → Prop where
  | null : NumberFree .null
  | boolean (b : Bool) : NumberFree (.boolean b)
  | string (s : String) : NumberFree (.string s)
  | array {items : List Value} : (∀ v ∈ items, NumberFree v) → NumberFree (.array items)
  | object {members : List (String × Value)} : (∀ m ∈ members, NumberFree m.2) →
      NumberFree (.object members)

end VarLogic.Json
