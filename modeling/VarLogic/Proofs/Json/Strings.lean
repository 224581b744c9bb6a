/-
Strings in JSON text. A character is written as itself or as an escape, and the
reader takes either for the piece that stands for it (`pieces?_escapeChar`). So
reading what was written gives the text back, whatever follows the closing quote
(`string?_written`), and the end of a written string can be told from its text
(`stringChars_append_inj`).
-/
import VarLogic.Json.Reader
import VarLogic.Json.Writer

namespace VarLogic.Json

/-- The piece a written character is read as: controls without a letter of
their own are written as code units. -/
def Piece.ofChar (c : Char) : Piece :=
  if c.toNat < 0x20 ∧ c ∉ ['\x08', '\x0c', '\n', '\r', '\t'] then .unit c.toNat else .char c

/-- A code unit below U+0020 is read from its two digits. -/
theorem hex4?_control : ∀ n < 0x20,
    hex4? '0' '0' (Nat.digitChar (n / 16)) (Nat.digitChar (n % 16)) = some n := by decide

theorem pieces?_unit {a b c d : Char} {n : Nat} (h : hex4? a b c d = some n) (cs : List Char) :
    pieces? ('\\' :: 'u' :: a :: b :: c :: d :: cs) =
      (pieces? cs).map fun p => (.unit n :: p.1, p.2) := by
  rw [pieces?]
  cases hp : pieces? cs <;> simp [h]

theorem pieces?_short {e c : Char} (h : shortEscape? e = some c) (cs : List Char) :
    pieces? ('\\' :: e :: cs) = (pieces? cs).map fun p => (.char c :: p.1, p.2) := by
  rw [pieces?]
  · cases hp : pieces? cs <;> simp [h]
  · rintro a b c d rest rfl
    simp [shortEscape?] at h

theorem pieces?_plain {c : Char} (hq : c ≠ '"') (hb : c ≠ '\\') (hc : ¬ c.toNat < 0x20)
    (cs : List Char) : pieces? (c :: cs) = (pieces? cs).map fun p => (.char c :: p.1, p.2) := by
  rw [pieces?]
  · cases hp : pieces? cs <;> simp [hc]
  · exact hq
  · rintro a b c d rest rfl
    exact absurd rfl hb
  · rintro e rest rfl
    exact absurd rfl hb

/-- A written character is read as one piece. -/
theorem pieces?_escapeChar (c : Char) (cs : List Char) :
    pieces? (escapeChar c ++ cs) = (pieces? cs).map fun p => (.ofChar c :: p.1, p.2) := by
  have hnat : ∀ d : Char, c.toNat = d.toNat → c = d := fun d => Char.toNat_inj.1
  unfold escapeChar
  split
  · subst c
    exact pieces?_short rfl cs
  split
  · subst c
    exact pieces?_short rfl cs
  split
  · obtain rfl := hnat '\x08' ‹_›
    exact pieces?_short rfl cs
  split
  · obtain rfl := hnat '\x0c' ‹_›
    exact pieces?_short rfl cs
  split
  · subst c
    exact pieces?_short rfl cs
  split
  · subst c
    exact pieces?_short rfl cs
  split
  · subst c
    exact pieces?_short rfl cs
  rename_i hq hb hbs hff hlf hcr htab
  split
  · rename_i hc
    have hshort : c ∉ ['\x08', '\x0c', '\n', '\r', '\t'] := by
      simp only [List.mem_cons, List.not_mem_nil, or_false, not_or]
      exact ⟨fun h => hbs (h ▸ rfl), fun h => hff (h ▸ rfl), hlf, hcr, htab⟩
    rw [Piece.ofChar, if_pos ⟨hc, hshort⟩]
    exact pieces?_unit (hex4?_control c.toNat hc) cs
  · rename_i hc
    rw [Piece.ofChar, if_neg fun h => hc h.1]
    exact pieces?_plain hq hb hc cs

theorem pieces?_written (cs r : List Char) :
    pieces? (cs.flatMap escapeChar ++ '"' :: r) = some (cs.map .ofChar, r) := by
  induction cs with
  | nil => rfl
  | cons c cs ih => rw [List.flatMap_cons, List.append_assoc, pieces?_escapeChar, ih]; rfl

/-- A code unit below U+0020 is no half of a surrogate pair. -/
theorem joinPieces?_control {n : Nat} (h : n < 0x20) (ps : List Piece) :
    joinPieces? (.unit n :: ps) = (joinPieces? ps).map (Char.ofNat n :: ·) := by
  have hhigh : Text.isHighSurrogate n = false := by simp [Text.isHighSurrogate]; omega
  have hlow : Text.isLowSurrogate n = false := by simp [Text.isLowSurrogate]; omega
  cases ps with
  | nil => simp [joinPieces?, hhigh, hlow]
  | cons p ps =>
    cases p with
    | char c => cases hj : joinPieces? ps <;> simp [joinPieces?, hhigh, hlow, hj]
    | unit m => cases hj : joinPieces? (.unit m :: ps) <;> simp [joinPieces?, hhigh, hlow, hj]

theorem joinPieces?_ofChar (cs : List Char) : joinPieces? (cs.map .ofChar) = some cs := by
  induction cs with
  | nil => rfl
  | cons c cs ih =>
    rw [List.map_cons, Piece.ofChar]
    split
    · rename_i hc
      rw [joinPieces?_control hc.1, ih, Option.map_some, Char.ofNat_toNat]
    · simp [joinPieces?, ih]

/-- **A written string is read back**, whatever follows it. -/
theorem string?_written (text : String) (r : List Char) :
    string? (text.toList.flatMap escapeChar ++ '"' :: r) = some (some text, r) := by
  simp [string?, pieces?_written, joinPieces?_ofChar]

/-- Where a written string ends can be told from its text. -/
theorem stringChars_append_inj {s t : String} {r r' : List Char}
    (h : stringChars s ++ r = stringChars t ++ r') : s = t ∧ r = r' := by
  simp only [stringChars, List.cons_append, List.append_assoc, List.cons.injEq, true_and,
    List.nil_append] at h
  have hread := (string?_written s r).symm.trans (h ▸ string?_written t r')
  simpa using hread

end VarLogic.Json
