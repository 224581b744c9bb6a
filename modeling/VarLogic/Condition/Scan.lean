/-
Definitions straight from JSON text. Its characters are gone over once, from left
to right, and no value is kept of them: a condition is made of what was read so
far, and at the first character that it cannot go on with reading ends.
-/
import VarLogic.Definitions
import VarLogic.Json.Reader

namespace VarLogic

open Json (skip string? expect? key?)

/-! ## Conditions -/

namespace Condition

mutual

/-- A condition and what follows it. Each step spends one unit of fuel, and
containers may lie `depth` deep. -/
def scan? : Nat → Nat → List Char → Option (Condition String × List Char)
  | 0, _, _ => none
  | fuel + 1, depth, cs =>
    match skip cs with
    | '"' :: rest => do
      let (text, rest) ← string? rest
      some (.leaf (← text), rest)
    | '{' :: rest =>
      match depth with
      | 0 => none
      | depth + 1 => do
        let (operator, rest) ← key? rest
        let (c, rest) ← scanOperand? fuel depth operator rest
        some (c, ← expect? '}' rest)
    | _ => none
termination_by structural fuel => fuel

/-- The condition of an operator. -/
def scanOperand? : Nat → Nat → String → List Char → Option (Condition String × List Char)
  | 0, _, _, _ => none
  | fuel + 1, depth, operator, cs =>
    if operator = "and" then (scanOperands? fuel depth cs).map (Prod.map .and id)
    else if operator = "or" then (scanOperands? fuel depth cs).map (Prod.map .or id)
    else if operator = "not" then (scan? fuel depth cs).map (Prod.map .not id)
    else none
termination_by structural fuel => fuel

/-- The conditions of a list. -/
def scanOperands? : Nat → Nat → List Char → Option (List (Condition String) × List Char)
  | 0, _, _ => none
  | _ + 1, 0, _ => none
  | fuel + 1, depth + 1, cs => do
    let rest ← expect? '[' cs
    match skip rest with
    | ']' :: rest => some ([], rest)
    | rest => scanItems? fuel depth rest
termination_by structural fuel => fuel

/-- One condition or more, and the closing bracket. -/
def scanItems? : Nat → Nat → List Char → Option (List (Condition String) × List Char)
  | 0, _, _ => none
  | fuel + 1, depth, cs => do
    let (c, rest) ← scan? fuel depth cs
    match skip rest with
    | ']' :: rest => some ([c], rest)
    | ',' :: rest => do
      let (cs, rest) ← scanItems? fuel depth rest
      some (c :: cs, rest)
    | _ => none
termination_by structural fuel => fuel

end

end Condition

/-! ## Definitions -/

namespace Definitions

/-- One definition or more, and the closing brace. -/
def scanEntries? : Nat → Nat → List Char → Option (Definitions × List Char)
  | 0, _, _ => none
  | fuel + 1, depth, cs => do
    let (name, rest) ← key? cs
    let (c, rest) ← Condition.scan? fuel depth rest
    match skip rest with
    | '}' :: rest => some ([(name, c)], rest)
    | ',' :: rest => do
      let (definitions, rest) ← scanEntries? fuel depth rest
      some ((name, c) :: definitions, rest)
    | _ => none

/-- The definitions of a whole text that holds nothing else. -/
def scan? (text : String) : Option Definitions := do
  let (field, rest) ← key? (← expect? '{' text.toList)
  let rest ← if field = "conditions" then expect? '{' rest else none
  let (definitions, rest) ←
    match skip rest with
    | '}' :: rest => some ([], rest)
    | rest => scanEntries? (2 * text.toList.length + 2) (Json.maxDepth - 2) rest
  let rest ← expect? '}' rest
  if skip rest = [] then some definitions else none

end Definitions

end VarLogic
