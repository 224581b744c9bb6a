/-
Numbers, date-times and booleans of TOML as document values. A number that is
not finite has no value, and a date-time is shown as a table with one reserved
key, as decoders see it.
-/
import VarLogic.Json.NumberLiteral
import VarLogic.Toml.Lexical

namespace VarLogic.Toml

open Json (Value digitValue digitsValue)

/-! ## Digits -/

/-- Digits with single underscores between them. -/
def digitRun? (isDigit : Char → Bool) : List Char → Option (List Char × List Char)
  | [] => none
  | c :: cs =>
    if isDigit c then
      match cs with
      | '_' :: rest => do
        let (digits, rest) ← digitRun? isDigit rest
        some (c :: digits, rest)
      | cs =>
        match digitRun? isDigit cs with
        | some (digits, rest) => some (c :: digits, rest)
        | none => some ([c], cs)
    else none

/-- A sign, if there is one. -/
def sign : List Char → Bool × List Char
  | '+' :: cs => (false, cs)
  | '-' :: cs => (true, cs)
  | cs => (false, cs)

/-- Whole digits: a zero stands alone. -/
def whole? : List Char → Option (List Char × List Char)
  | '0' :: cs => some (['0'], cs)
  | cs => digitRun? Char.isDigit cs

/-! ## Integers -/

/-- An integer within 64 bits. -/
def integerValue? (n : Int) : Option Value :=
  if -0x8000000000000000 ≤ n ∧ n < 0x8000000000000000 then some (.number (.integer n)) else none

/-- The value of digits of a base. -/
def based? (base : Nat) (isDigit : Char → Bool) (cs : List Char) : Option (Value × List Char) := do
  let (digits, rest) ← digitRun? isDigit cs
  let values ← digits.mapM hexValue?
  some (← integerValue? (values.foldl (fun n d => n * base + d) 0 : Nat), rest)

def integer? : List Char → Option (Value × List Char)
  | '0' :: 'x' :: cs => based? 16 (fun c => (hexValue? c).isSome) cs
  | '0' :: 'o' :: cs => based? 8 (fun c => '0' ≤ c && c ≤ '7') cs
  | '0' :: 'b' :: cs => based? 2 (fun c => c == '0' || c == '1') cs
  | cs => do
    let (negative, cs) := sign cs
    let (digits, rest) ← whole? cs
    let n : Int := digitsValue digits
    some (← integerValue? (if negative then -n else n), rest)

/-! ## Floats -/

/-- The fraction, if there is one. -/
def fraction? : List Char → Option (List Char × List Char)
  | '.' :: cs => digitRun? Char.isDigit cs
  | cs => some ([], cs)

/-- The exponent, if there is one. -/
def exponent? : List Char → Option (Option Int × List Char)
  | c :: cs =>
    if c = 'e' ∨ c = 'E' then do
      let (negative, cs) := sign cs
      let (digits, rest) ← digitRun? Char.isDigit cs
      let n : Int := digitsValue digits
      some (some (if negative then -n else n), rest)
    else some (none, c :: cs)
  | [] => some (none, [])

/-- A number with a fraction or an exponent. Above the range there is only a
negative one, which is not finite. -/
def decimal? (cs : List Char) : Option (Value × List Char) := do
  let (negative, cs) := sign cs
  let (whole, cs) ← whole? cs
  let (fraction, cs) ← fraction? cs
  let (exponent, rest) ← exponent? cs
  if fraction.isEmpty && exponent.isNone then none
  else
    let digits := digitsValue (whole ++ fraction)
    match Decimal.Double.ofDecimal? negative digits (exponent.getD 0 - fraction.length) with
    | some x => some (.number (.double x), rest)
    | none => if negative then some (.null, rest) else none

/-- Infinities and what is no number. -/
def special? (cs : List Char) : Option (Value × List Char) :=
  match (sign cs).2 with
  | 'i' :: 'n' :: 'f' :: rest => some (.null, rest)
  | 'n' :: 'a' :: 'n' :: rest => some (.null, rest)
  | _ => none

/-! ## Dates and times -/

/-- Exactly so many digits, within a range. -/
def field? (count least most : Nat) (cs : List Char) : Option (Nat × List Char) :=
  let digits := cs.take count
  let n := digitsValue digits
  if digits.length = count ∧ digits.all Char.isDigit ∧ least ≤ n ∧ n ≤ most then
    some (n, cs.drop count)
  else none

/-- A character that must follow. -/
def char? (c : Char) : List Char → Option (List Char)
  | d :: cs => if d = c then some cs else none
  | [] => none

/-- A number in at least so many digits. -/
def padded (width n : Nat) : List Char :=
  let digits := Nat.toDigits 10 n
  List.replicate (width - digits.length) '0' ++ digits

/-- The days of a month. -/
def daysIn (year month : Nat) : Nat :=
  if month = 2 then
    if year % 4 = 0 ∧ (year % 100 ≠ 0 ∨ year % 400 = 0) then 29 else 28
  else if month = 4 ∨ month = 6 ∨ month = 9 ∨ month = 11 then 30
  else 31

/-- A date, in its standard form. -/
def date? (cs : List Char) : Option (List Char × List Char) := do
  let (year, cs) ← field? 4 0 9999 cs
  let cs ← char? '-' cs
  let (month, cs) ← field? 2 1 12 cs
  let cs ← char? '-' cs
  let (day, rest) ← field? 2 1 (daysIn year month) cs
  some (padded 4 year ++ '-' :: padded 2 month ++ '-' :: padded 2 day, rest)

/-- The fraction of a second, to nine places, without trailing zeros. -/
def secondFraction (digits : List Char) : List Char :=
  match ((digits.take 9).reverse.dropWhile (· == '0')).reverse with
  | [] => []
  | places => '.' :: places

/-- A time of day, in its standard form. -/
def time? (cs : List Char) : Option (List Char × List Char) := do
  let (hour, cs) ← field? 2 0 23 cs
  let cs ← char? ':' cs
  let (minute, cs) ← field? 2 0 59 cs
  let cs ← char? ':' cs
  let (second, cs) ← field? 2 0 60 cs
  let clock := padded 2 hour ++ ':' :: padded 2 minute ++ ':' :: padded 2 second
  match cs with
  | '.' :: d :: rest =>
    if d.isDigit then
      some (clock ++ secondFraction (d :: rest.takeWhile Char.isDigit), rest.dropWhile Char.isDigit)
    else some (clock, cs)
  | _ => some (clock, cs)

/-- The distance from universal time, if it is given. -/
def offset? : List Char → Option (List Char × List Char)
  | [] => some ([], [])
  | c :: cs =>
    if c = 'Z' ∨ c = 'z' then some (['Z'], cs)
    else if c = '+' ∨ c = '-' then do
      let (hour, cs) ← field? 2 0 23 cs
      let cs ← char? ':' cs
      let (minute, rest) ← field? 2 0 59 cs
      let plus := c = '+' ∨ (hour = 0 ∧ minute = 0)
      some ((if plus then '+' else '-') :: padded 2 hour ++ ':' :: padded 2 minute, rest)
    else some ([], c :: cs)

/-- The key under which decoders see a date-time. -/
def dateTimeKey : String := "$__toml_private_datetime"

def dateTimeValue (text : List Char) : Value :=
  .object [(dateTimeKey, .string (String.ofList text))]

/-- Separates a date from a time. -/
def isDateTimeMark (c : Char) : Bool := c == 'T' || c == 't' || c == ' '

/-- A date, a time, or both. -/
def dateTime? (cs : List Char) : Option (Value × List Char) :=
  match date? cs with
  | none => do
    let (time, rest) ← time? cs
    some (dateTimeValue time, rest)
  | some (date, rest) =>
    match rest with
    | [] => some (dateTimeValue date, [])
    | mark :: after =>
      if isDateTimeMark mark then
        match time? after with
        | none => some (dateTimeValue date, rest)
        | some (time, rest) => do
          let (offset, rest) ← offset? rest
          some (dateTimeValue (date ++ 'T' :: time ++ offset), rest)
      else some (dateTimeValue date, rest)

/-! ## Scalars -/

/-- A value that is neither a string nor a container. -/
def scalar? : List Char → Option (Value × List Char)
  | 't' :: 'r' :: 'u' :: 'e' :: rest => some (.boolean true, rest)
  | 'f' :: 'a' :: 'l' :: 's' :: 'e' :: rest => some (.boolean false, rest)
  | cs => dateTime? cs <|> decimal? cs <|> special? cs <|> integer? cs

end VarLogic.Toml
