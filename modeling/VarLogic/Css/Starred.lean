/-
Texts with stars for ampersands. In a selector `&` is the styled element and `*`
any element. A text can be rewritten from the one to the other by its characters
(`starred`) or by its tokens (`Token.starred`); these differ where an ampersand is
part of another token, or where a star makes a token with what stands next to it.
-/
import Mathlib.Data.List.Infix
import VarLogic.Css.Lexer

namespace VarLogic.Css

/-- A star for an ampersand. -/
def star (c : Char) : Char := if c = '&' then '*' else c

/-- The text with stars for its ampersands. -/
def starred (cs : List Char) : List Char := cs.map star

/-- The tokens of a text, of brackets and what stands in them alike. -/
def tokens (cs : List Char) : List Token := (lexemes cs).map (·.token)

/-- A star for a reference to the element. -/
def Token.starred : Token → Token
  | delim c => delim (star c)
  | t => t

/-- The ampersands of a text are references to the element and nothing else, and
a star there starts no comment and no `*=`. -/
structure ElementsApart (cs : List Char) : Prop where
  alone : ∀ l ∈ lexemes cs, '&' ∈ l.text → l.token = .delim '&'
  slash : ¬ [.delim '/', .delim '&'] <:+: tokens cs
  equals : ¬ [.delim '&', .delim '='] <:+: tokens cs

instance (cs : List Char) : Decidable (ElementsApart cs) :=
  decidable_of_iff
    ((∀ l ∈ lexemes cs, '&' ∈ l.text → l.token = .delim '&') ∧
      ¬ [.delim '/', .delim '&'] <:+: tokens cs ∧ ¬ [.delim '&', .delim '='] <:+: tokens cs)
    ⟨fun ⟨ha, hs, he⟩ => ⟨ha, hs, he⟩, fun h => ⟨h.alone, h.slash, h.equals⟩⟩

end VarLogic.Css
