/-
CSS tokens. Numbers keep their text, names and strings the characters they
stand for once escapes are resolved. A lexeme is a token with its source text.
-/
namespace VarLogic.Css

inductive Token where
  | ident (name : List Char)
  | function (name : List Char)
  | atKeyword (name : List Char)
  | hash (name : List Char)
  | idHash (name : List Char)
  | string (value : List Char)
  | badString
  | url (value : List Char)
  | badUrl
  | number (text : List Char)
  | percentage (text : List Char)
  | dimension (text unit : List Char)
  | whitespace (text : List Char)
  | comment (text : List Char)
  | delim (c : Char)
  | colon
  | semicolon
  | comma
  | includeMatch
  | dashMatch
  | prefixMatch
  | suffixMatch
  | substringMatch
  | cdo
  | cdc
  | openParen
  | openSquare
  | openCurly
  | closeParen
  | closeSquare
  | closeCurly
deriving DecidableEq, Repr

structure Lexeme where
  token : Token
  text : List Char
deriving DecidableEq, Repr

/-! ## Characters -/

/-- Stands for NUL, for a code point that is no character, and for nothing
after a backslash at the end of the text. -/
def replacement : Char := Char.ofNat 0xFFFD

/-- Ends a line. -/
def isNewline (c : Char) : Bool := c == '\n' || c == '\r' || c == '\x0c'

/-- Blank in CSS. -/
def isSpace (c : Char) : Bool := c == ' ' || c == '\t' || isNewline c

/-- Starts a name; NUL counts as the character that replaces it. -/
def isNameStart (c : Char) : Bool :=
  c.isAlpha || c == '_' || c == '\x00' || 0x80 ≤ c.toNat

/-- Continues a name. -/
def isNameChar (c : Char) : Bool := isNameStart c || c.isDigit || c == '-'

/-- Not allowed in an unquoted url. -/
def isUnprintable (c : Char) : Bool :=
  let n := c.toNat
  (1 ≤ n && n ≤ 8) || n == 0xB || (0xE ≤ n && n ≤ 0x1F) || n == 0x7F

/-- The value of a hexadecimal digit. -/
def hexValue? (c : Char) : Option Nat :=
  if '0' ≤ c ∧ c ≤ '9' then some (c.toNat - 48)
  else if 'a' ≤ c ∧ c ≤ 'f' then some (c.toNat - 87)
  else if 'A' ≤ c ∧ c ≤ 'F' then some (c.toNat - 55)
  else none

/-- The text starts with a newline. -/
def startsLine : List Char → Bool
  | [] => false
  | c :: _ => isNewline c

/-- The text starts a name. A hyphen before a hyphen or a backslash does,
whatever comes after. -/
def startsName : List Char → Bool
  | [] => false
  | '-' :: [] => false
  | '-' :: d :: _ => isNameStart d || d == '-' || d == '\\'
  | '\\' :: cs => !startsLine cs
  | c :: _ => isNameStart c

end VarLogic.Css
