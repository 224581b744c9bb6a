/-
The small parts of TOML: blanks, line ends, comments, keys and strings. Each
reader takes the characters left and returns what it read and the characters
left after it.
-/
namespace VarLogic.Toml

/-- Blank within a line. -/
def isBlank (c : Char) : Bool := c == ' ' || c == '\t'

/-- Allowed in a comment: all but the controls other than tab. -/
def isVisible (c : Char) : Bool :=
  c == '\t' || (0x20 ≤ c.toNat && c.toNat ≠ 0x7F)

def skipBlank (cs : List Char) : List Char := cs.dropWhile isBlank

/-! ## Lines -/

/-- A line feed, or a carriage return with one. -/
def newline? : List Char → Option (List Char)
  | '\n' :: cs => some cs
  | '\r' :: '\n' :: cs => some cs
  | _ => none

/-- A comment, if there is one. -/
def skipComment : List Char → List Char
  | '#' :: cs => cs.dropWhile isVisible
  | cs => cs

/-- The end of a line or of the text. -/
def lineOrTextEnd? : List Char → Option (List Char)
  | [] => some []
  | cs => newline? cs

/-- What may follow a statement on its line. -/
def lineEnd? (cs : List Char) : Option (List Char) :=
  lineOrTextEnd? (skipComment (skipBlank cs))

/-- Leaves out blanks and newlines. -/
def skipSpace : List Char → List Char
  | '\n' :: cs => skipSpace cs
  | '\r' :: '\n' :: cs => skipSpace cs
  | c :: cs => if isBlank c then skipSpace cs else c :: cs
  | [] => []

/-- Leaves out blanks, newlines and comments that end in a newline; a step
leaves out at least one character. -/
def skipLines : Nat → List Char → List Char
  | 0, cs => cs
  | fuel + 1, cs =>
    match skipSpace cs with
    | '#' :: rest =>
      match newline? (rest.dropWhile isVisible) with
      | some rest => skipLines fuel rest
      | none => '#' :: rest
    | rest => rest

/-! ## Strings -/

/-- The value of a hexadecimal digit. -/
def hexValue? (c : Char) : Option Nat :=
  if '0' ≤ c ∧ c ≤ '9' then some (c.toNat - 48)
  else if 'a' ≤ c ∧ c ≤ 'f' then some (c.toNat - 87)
  else if 'A' ≤ c ∧ c ≤ 'F' then some (c.toNat - 55)
  else none

/-- The character that hexadecimal digits name. -/
def unicode? (digits : List Char) : Option Char := do
  let values ← digits.mapM hexValue?
  let n := values.foldl (fun n d => n * 16 + d) 0
  if h : n.isValidChar then some (Char.ofNatAux n h) else none

/-- The character a one-letter escape stands for. -/
def shortEscape? : Char → Option Char
  | 'b' => some '\x08'
  | 't' => some '\t'
  | 'n' => some '\n'
  | 'f' => some '\x0c'
  | 'r' => some '\r'
  | '"' => some '"'
  | '\\' => some '\\'
  | _ => none

/-- What follows a backslash. -/
def escape? : List Char → Option (Char × List Char)
  | 'u' :: cs => do
    let digits := cs.take 4
    if digits.length = 4 then some (← unicode? digits, cs.drop 4) else none
  | 'U' :: cs => do
    let digits := cs.take 8
    if digits.length = 8 then some (← unicode? digits, cs.drop 8) else none
  | c :: cs => do some (← shortEscape? c, cs)
  | [] => none

/-- The rest of a string in double quotes. -/
def basic? : Nat → List Char → Option (List Char × List Char)
  | 0, _ => none
  | _ + 1, [] => none
  | fuel + 1, c :: cs =>
    if c = '"' then some ([], cs)
    else if c = '\\' then do
      let (e, rest) ← escape? cs
      let (value, rest) ← basic? fuel rest
      some (e :: value, rest)
    else if isVisible c then do
      let (value, rest) ← basic? fuel cs
      some (c :: value, rest)
    else none

/-- The rest of a string in single quotes, in which nothing is escaped. -/
def literal? : List Char → Option (List Char × List Char)
  | [] => none
  | c :: cs =>
    if c = '\'' then some ([], cs)
    else if isVisible c then do
      let (value, rest) ← literal? cs
      some (c :: value, rest)
    else none

/-- Quotes inside a string of three quotes: one or two stand for themselves,
and three or more end it, up to two of them before the end mark. -/
def closing? (quote : Char) (cs : List Char) : Option (List Char × List Char) :=
  let run := (cs.takeWhile (· == quote)).length
  if run < 3 then none
  else
    let kept := min (run - 3) 2
    some (List.replicate kept quote, cs.drop (kept + 3))

/-- The rest of a string in three double quotes. A backslash at the end of a
line leaves out the blanks and newlines that follow. -/
def multilineBasic? : Nat → List Char → Option (List Char × List Char)
  | 0, _ => none
  | _ + 1, [] => none
  | fuel + 1, c :: cs =>
    match newline? (c :: cs) with
    | some rest => do
      let (value, rest) ← multilineBasic? fuel rest
      some ('\n' :: value, rest)
    | none =>
      if c = '"' then
        match closing? '"' (c :: cs) with
        | some ending => some ending
        | none => do
          let (value, rest) ← multilineBasic? fuel cs
          some (c :: value, rest)
      else if c = '\\' then
        match newline? (skipBlank cs) with
        | some rest => multilineBasic? fuel (skipSpace rest)
        | none => do
          let (e, rest) ← escape? cs
          let (value, rest) ← multilineBasic? fuel rest
          some (e :: value, rest)
      else if isVisible c then do
        let (value, rest) ← multilineBasic? fuel cs
        some (c :: value, rest)
      else none

/-- The rest of a string in three single quotes. -/
def multilineLiteral? : Nat → List Char → Option (List Char × List Char)
  | 0, _ => none
  | _ + 1, [] => none
  | fuel + 1, c :: cs =>
    match newline? (c :: cs) with
    | some rest => do
      let (value, rest) ← multilineLiteral? fuel rest
      some ('\n' :: value, rest)
    | none =>
      if c = '\'' then
        match closing? '\'' (c :: cs) with
        | some ending => some ending
        | none => do
          let (value, rest) ← multilineLiteral? fuel cs
          some (c :: value, rest)
      else if isVisible c then do
        let (value, rest) ← multilineLiteral? fuel cs
        some (c :: value, rest)
      else none

/-- Leaves out the newline right after three quotes. -/
def skipNewline (cs : List Char) : List Char := (newline? cs).getD cs

/-- A string of any of the four kinds. -/
def string? : List Char → Option (List Char × List Char)
  | '"' :: '"' :: '"' :: cs => multilineBasic? (cs.length + 1) (skipNewline cs)
  | '\'' :: '\'' :: '\'' :: cs => multilineLiteral? (cs.length + 1) (skipNewline cs)
  | '"' :: cs => basic? (cs.length + 1) cs
  | '\'' :: cs => literal? cs
  | _ => none

/-! ## Keys -/

/-- Allowed in a key without quotes. -/
def isBareKeyChar (c : Char) : Bool := c.isAlphanum || c == '-' || c == '_'

/-- One part of a key. -/
def simpleKey? : List Char → Option (String × List Char)
  | '"' :: cs => do
    let (key, rest) ← basic? (cs.length + 1) cs
    some (String.ofList key, rest)
  | '\'' :: cs => do
    let (key, rest) ← literal? cs
    some (String.ofList key, rest)
  | cs =>
    match cs.takeWhile isBareKeyChar with
    | [] => none
    | key => some (String.ofList key, cs.dropWhile isBareKeyChar)

/-- A key: parts with points between them, and blanks around the parts. -/
def keyParts? : Nat → List Char → Option (List String × List Char)
  | 0, _ => none
  | fuel + 1, cs => do
    let (part, rest) ← simpleKey? (skipBlank cs)
    match skipBlank rest with
    | '.' :: rest => do
      let (parts, rest) ← keyParts? fuel rest
      some (part :: parts, rest)
    | rest => some ([part], rest)

/-- How deep values may nest, and how many parts a key may have. -/
def maxDepth : Nat := 79

/-- A key of at most so many parts. -/
def key? (cs : List Char) : Option (List String × List Char) := keyParts? maxDepth cs

end VarLogic.Toml
