/-
Reading JSON text. A text is first read as far as its grammar goes, into a
tree in which a string or a number may have no value: a string with half of a
surrogate pair, a number beyond the range of doubles. A value is then what a
tree stands for, if every part has a value and it is not nested too deep.
-/
import VarLogic.Json.NumberLiteral
import VarLogic.Text.Utf16

namespace VarLogic.Json

/-- A text that follows the grammar, before its strings and numbers are judged. -/
inductive Raw where
  | null
  | boolean (value : Bool)
  | number (value : Option Number)
  | string (text : Option String)
  | array (items : List Raw)
  | object (members : List (Option String × Raw))

/-! ## Strings -/

/-- A character as it stands, or an escaped code unit. -/
inductive Piece where
  | char (c : Char)
  | unit (n : Nat)

/-- The value of a hexadecimal digit. -/
def hexValue? (c : Char) : Option Nat :=
  if '0' ≤ c ∧ c ≤ '9' then some (c.toNat - 48)
  else if 'a' ≤ c ∧ c ≤ 'f' then some (c.toNat - 87)
  else if 'A' ≤ c ∧ c ≤ 'F' then some (c.toNat - 55)
  else none

/-- Four hexadecimal digits. -/
def hex4? (a b c d : Char) : Option Nat := do
  some ((((← hexValue? a) * 16 + (← hexValue? b)) * 16 + (← hexValue? c)) * 16 + (← hexValue? d))

/-- The character a one-letter escape stands for. -/
def shortEscape? : Char → Option Char
  | '"' => some '"'
  | '\\' => some '\\'
  | '/' => some '/'
  | 'b' => some '\x08'
  | 'f' => some '\x0c'
  | 'n' => some '\n'
  | 'r' => some '\r'
  | 't' => some '\t'
  | _ => none

/-- A string up to its closing quote. -/
def pieces? : List Char → Option (List Piece × List Char)
  | [] => none
  | '"' :: rest => some ([], rest)
  | '\\' :: 'u' :: a :: b :: c :: d :: rest => do
    let n ← hex4? a b c d
    let (ps, rest) ← pieces? rest
    some (.unit n :: ps, rest)
  | '\\' :: e :: rest => do
    let c ← shortEscape? e
    let (ps, rest) ← pieces? rest
    some (.char c :: ps, rest)
  | c :: rest =>
    if c.toNat < 0x20 then none
    else do
      let (ps, rest) ← pieces? rest
      some (.char c :: ps, rest)

/-- The text of a string: surrogates count in pairs only. -/
def joinPieces? : List Piece → Option (List Char)
  | [] => some []
  | .char c :: ps => do some (c :: (← joinPieces? ps))
  | .unit n :: .unit m :: ps =>
    if Text.isHighSurrogate n then
      if Text.isLowSurrogate m then do some (Text.ofSurrogates n m :: (← joinPieces? ps)) else none
    else if Text.isLowSurrogate n then none
    else do some (Char.ofNat n :: (← joinPieces? (.unit m :: ps)))
  | .unit n :: ps =>
    if Text.isHighSurrogate n || Text.isLowSurrogate n then none
    else do some (Char.ofNat n :: (← joinPieces? ps))

/-- The string whose opening quote was read, and its text if it has one. -/
def string? (cs : List Char) : Option (Option String × List Char) := do
  let (ps, rest) ← pieces? cs
  some ((joinPieces? ps).map String.ofList, rest)

/-! ## Values -/

/-- The blanks of JSON. -/
def isSpace (c : Char) : Bool := c == ' ' || c == '\n' || c == '\t' || c == '\r'

/-- Leaves out blanks. -/
def skip (cs : List Char) : List Char := cs.dropWhile isSpace

mutual

/-- A value and what follows it; each step spends one unit of fuel. -/
def raw? : Nat → List Char → Option (Raw × List Char)
  | 0, _ => none
  | fuel + 1, cs =>
    match skip cs with
    | 'n' :: 'u' :: 'l' :: 'l' :: rest => some (.null, rest)
    | 't' :: 'r' :: 'u' :: 'e' :: rest => some (.boolean true, rest)
    | 'f' :: 'a' :: 'l' :: 's' :: 'e' :: rest => some (.boolean false, rest)
    | '"' :: rest => do
      let (text, rest) ← string? rest
      some (.string text, rest)
    | '[' :: rest =>
      match skip rest with
      | ']' :: rest => some (.array [], rest)
      | rest => do
        let (items, rest) ← rawItems? fuel rest
        some (.array items, rest)
    | '{' :: rest =>
      match skip rest with
      | '}' :: rest => some (.object [], rest)
      | rest => do
        let (members, rest) ← rawMembers? fuel rest
        some (.object members, rest)
    | rest => do
      let (literal, rest) ← numberLiteral? rest
      some (.number literal.number?, rest)
termination_by structural fuel => fuel

/-- One item or more, and the closing bracket. -/
def rawItems? : Nat → List Char → Option (List Raw × List Char)
  | 0, _ => none
  | fuel + 1, cs => do
    let (item, rest) ← raw? fuel cs
    match skip rest with
    | ']' :: rest => some ([item], rest)
    | ',' :: rest => do
      let (items, rest) ← rawItems? fuel rest
      some (item :: items, rest)
    | _ => none
termination_by structural fuel => fuel

/-- One member or more, and the closing brace. -/
def rawMembers? : Nat → List Char → Option (List (Option String × Raw) × List Char)
  | 0, _ => none
  | fuel + 1, cs =>
    match skip cs with
    | '"' :: rest => do
      let (key, rest) ← string? rest
      match skip rest with
      | ':' :: rest => do
        let (value, rest) ← raw? fuel rest
        match skip rest with
        | '}' :: rest => some ([(key, value)], rest)
        | ',' :: rest => do
          let (members, rest) ← rawMembers? fuel rest
          some ((key, value) :: members, rest)
        | _ => none
      | _ => none
    | _ => none
termination_by structural fuel => fuel

end

/-- The tree of a whole text. A value takes at most two steps a character. -/
def Raw.ofText? (text : String) : Option Raw := do
  let cs := text.toList
  let (tree, rest) ← raw? (2 * cs.length + 2) cs
  if skip rest = [] then some tree else none

/-! ## The value of a tree -/

mutual

/-- The value of a tree in which containers lie at most `depth` deep. -/
def Raw.value? : Nat → Raw → Option Value
  | _, .null => some .null
  | _, .boolean b => some (.boolean b)
  | _, .number n => n.map .number
  | _, .string s => s.map .string
  | 0, .array _ => none
  | depth + 1, .array items => do some (.array (← itemValues? depth items))
  | 0, .object _ => none
  | depth + 1, .object members => do some (.object (← memberValues? depth members))
termination_by structural _ tree => tree

/-- The values of items. -/
def itemValues? : Nat → List Raw → Option (List Value)
  | _, [] => some []
  | depth, t :: ts => do some ((← t.value? depth) :: (← itemValues? depth ts))
termination_by structural _ trees => trees

/-- The values of members. -/
def memberValues? : Nat → List (Option String × Raw) → Option (List (String × Value))
  | _, [] => some []
  | depth, (key, t) :: ms => do
    some ((← key, ← t.value? depth) :: (← memberValues? depth ms))
termination_by structural _ members => members

end

/-- How deep the containers of a document may lie. -/
def maxDepth : Nat := 127

/-- The value of a whole text. -/
def Value.ofText? (text : String) : Option Value := do
  (← Raw.ofText? text).value? maxDepth

/-! ## Marks -/

/-- What follows a mark. -/
def expect? (mark : Char) (cs : List Char) : Option (List Char) :=
  match skip cs with
  | [] => none
  | c :: rest => if c = mark then some rest else none

/-- A key up to its colon. -/
def key? (cs : List Char) : Option (String × List Char) := do
  let rest ← expect? '"' cs
  let (key, rest) ← string? rest
  let rest ← expect? ':' rest
  some (← key, rest)

end VarLogic.Json
