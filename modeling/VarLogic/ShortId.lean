/-
Short names for generated custom properties. A text is folded to 31 bits
over its UTF-16 code units and the result written in base 36; a leading digit
gets an `a` in front, so that the name can follow `--` anywhere. The hash is
not cryptographic: it only has to keep generated names apart.
-/
import VarLogic.Text.Utf16

namespace VarLogic.ShortId

/-! ## Folding -/

/-- One step of the fold, `31 * hash + unit` in 32-bit words with the top bit
cleared: the shift and the subtraction wrap. -/
def step (hash : UInt32) (unit : Nat) : UInt32 :=
  ((hash <<< 5) - hash + UInt32.ofNat unit) &&& 0x7FFFFFFF

/-- The 31-bit hash of a text. -/
def fold (text : String) : UInt32 :=
  (Text.utf16 text).foldl step 0

/-! ## Base 36 -/

/-- The digit for a value below 36: `0` to `9`, then `a` to `z`. -/
def digit36 (n : Nat) : Char :=
  if n < 10 then Char.ofNat (48 + n) else Char.ofNat (87 + n)

/-- The shortest base-36 form, most significant digit first. -/
def base36 (n : Nat) : List Char :=
  if n < 36 then [digit36 n] else base36 (n / 36) ++ [digit36 (n % 36)]

/-- A leading `a` for a form that starts with a digit. -/
def lettered : List Char → List Char
  | [] => []
  | c :: cs => if c.isDigit then 'a' :: c :: cs else c :: cs

/-- The id of a text. -/
def ofText (text : String) : String :=
  String.ofList (lettered (base36 (fold text).toNat))

end VarLogic.ShortId
