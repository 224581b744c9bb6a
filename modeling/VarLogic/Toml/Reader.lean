/-
Reading TOML documents. A document is a run of assignments, and then sections,
each a header and a run of assignments.
-/
import VarLogic.Toml.Scalar
import VarLogic.Toml.Table

namespace VarLogic.Toml

open Json (Value)

/-- A key in its parts, the last one apart. -/
def splitLast? (parts : List String) : Option (List String × String) := do
  some (parts.dropLast, ← parts.getLast?)

/-- Adds an assignment to the entries of a table. -/
def assign (entries : Entries) (assignment : List String × Value) : Option Entries := do
  let (parts, key) ← splitLast? assignment.1
  insertValue assignment.2 key parts entries

/-! ## Values -/

mutual

/-- A value and what follows it; arrays and inline tables nest at most `depth`
deep, and each step spends one unit of fuel. -/
def value? : Nat → Nat → List Char → Option (Value × List Char)
  | 0, _, _ => none
  | fuel + 1, depth, cs =>
    match cs with
    | '"' :: _ | '\'' :: _ => do
      let (text, rest) ← string? cs
      some (.string (String.ofList text), rest)
    | '[' :: rest =>
      match depth with
      | 0 => none
      | depth + 1 => do
        let (items, rest) ← items? fuel depth rest
        some (.array items, rest)
    | '{' :: rest =>
      match depth with
      | 0 => none
      | depth + 1 =>
        match skipBlank rest with
        | '}' :: rest => some (.object [], rest)
        | rest => do
          let (assignments, rest) ← inline? fuel depth rest
          let entries ← assignments.foldlM assign []
          some (.object (entryValues entries), rest)
    | cs => scalar? cs
termination_by structural fuel => fuel

/-- The items of an array up to its closing bracket; a comma may follow the
last. -/
def items? : Nat → Nat → List Char → Option (List Value × List Char)
  | 0, _, _ => none
  | fuel + 1, depth, cs =>
    match skipLines cs.length cs with
    | ']' :: rest => some ([], rest)
    | cs => do
      let (item, rest) ← value? fuel depth cs
      match skipLines rest.length rest with
      | ']' :: rest => some ([item], rest)
      | ',' :: rest => do
        let (items, rest) ← items? fuel depth rest
        some (item :: items, rest)
      | _ => none
termination_by structural fuel => fuel

/-- The assignments of an inline table up to its closing brace. -/
def inline? : Nat → Nat → List Char → Option (List (List String × Value) × List Char)
  | 0, _, _ => none
  | fuel + 1, depth, cs => do
    let (key, rest) ← key? cs
    let rest ← char? '=' rest
    let (v, rest) ← value? fuel depth (skipBlank rest)
    match skipBlank rest with
    | '}' :: rest => some ([(key, v)], rest)
    | ',' :: rest => do
      let (more, rest) ← inline? fuel depth rest
      some ((key, v) :: more, rest)
    | _ => none
termination_by structural fuel => fuel

end

/-! ## Statements -/

inductive Statement where
  | assignment (key : List String) (v : Value)
  /-- `[key]` -/
  | table (key : List String)
  /-- `[[key]]` -/
  | element (key : List String)

/-- The statement at the start of a line, if there is one, and the next line. -/
def statement? (cs : List Char) : Option (Option Statement × List Char) :=
  match cs with
  | '#' :: _ => do some (none, ← lineEnd? cs)
  | '\n' :: _ | '\r' :: _ => do some (none, ← newline? cs)
  | '[' :: '[' :: rest => do
    let (key, rest) ← key? rest
    let rest ← char? ']' rest
    let rest ← char? ']' rest
    some (some (.element key), ← lineEnd? rest)
  | '[' :: rest => do
    let (key, rest) ← key? rest
    let rest ← char? ']' rest
    some (some (.table key), ← lineEnd? rest)
  | cs => do
    let (key, rest) ← key? cs
    let rest ← char? '=' rest
    let (v, rest) ← value? (2 * rest.length + 2) maxDepth (skipBlank rest)
    some (some (.assignment key v), ← lineEnd? rest)

/-- The statements of a text; each line takes at least one character. -/
def statements? : Nat → List Char → Option (List Statement)
  | 0, _ => none
  | fuel + 1, cs =>
    match skipBlank cs with
    | [] => some []
    | cs => do
      let (statement, rest) ← statement? cs
      let more ← statements? fuel rest
      some (statement.toList ++ more)

/-! ## Documents -/

/-- The assignments in front, and the statements from the next header on. -/
def spanAssignments : List Statement → List (List String × Value) × List Statement
  | .assignment key v :: rest => ((key, v) :: (spanAssignments rest).1, (spanAssignments rest).2)
  | rest => ([], rest)

theorem spanAssignments_length (ss : List Statement) :
    (spanAssignments ss).2.length ≤ ss.length := by
  fun_induction spanAssignments ss with
  | case1 key v rest ih => simp only [List.length_cons]; omega
  | case2 => exact Nat.le_refl _

/-- Adds the sections that headers open. -/
def addSections (root : Entries) : List Statement → Option Entries
  | [] => some root
  | .assignment _ _ :: _ => none
  | .table key :: rest => do
    let (parts, last) ← splitLast? key
    let fill (entries : Entries) := (spanAssignments rest).1.foldlM assign entries
    addSections (← changeAt (addTable last fill) parts root) (spanAssignments rest).2
  | .element key :: rest => do
    let (parts, last) ← splitLast? key
    let fill (entries : Entries) := (spanAssignments rest).1.foldlM assign entries
    addSections (← changeAt (addToTables last fill) parts root) (spanAssignments rest).2
termination_by ss => ss.length
decreasing_by
  all_goals
    have := spanAssignments_length rest
    simp only [List.length_cons]; omega

/-- Leaves out a byte order mark. -/
def skipMark : List Char → List Char
  | c :: cs => if c.toNat = 0xFEFF then cs else c :: cs
  | [] => []

/-- The value of a TOML text. -/
def ofText? (text : String) : Option Value := do
  let cs := skipMark text.toList
  let ss ← statements? (cs.length + 1) cs
  let root ← (spanAssignments ss).1.foldlM assign []
  some (.object (entryValues (← addSections root (spanAssignments ss).2)))

end VarLogic.Toml
