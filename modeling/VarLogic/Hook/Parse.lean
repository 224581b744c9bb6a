/-
Checking hook texts. A hook may hold no brace, no semicolon, no bad token and
no bracket without a partner, and every comment, string, url and bracket must
be closed. The text is tokenized as CSS first, so what stands in strings,
comments and urls does not count.
-/
import VarLogic.Css.Lexer
import VarLogic.Hook.Basic
import VarLogic.Text.Blank

namespace VarLogic

open Css (Lexeme lexemes)

/-- Why a text is no hook. -/
inductive HookFault where
  | unsupportedAtRule
  | noPrelude
  | noElement
  | brace
  | semicolon
  | unbalanced
  | malformed
  | openComment
  | openString
  | openUrl
  | openBlock (closer : Char)
deriving DecidableEq, Repr

namespace HookFault

def message : HookFault → String
  | unsupportedAtRule => "only @media, @container and @supports are supported"
  | noPrelude => "at-rule has no prelude"
  | noElement => "selector must reference the element with '&'"
  | brace => "curly braces are not allowed"
  | semicolon => "';' is not allowed"
  | unbalanced => "unbalanced closing bracket"
  | malformed => "malformed token"
  | openComment => "unterminated comment"
  | openString => "unterminated string"
  | openUrl => "unterminated url"
  | openBlock closer => "unclosed block, expected '" ++ closer.toString ++ "'"

end HookFault

namespace Hook

/-! ## Ends -/

/-- A comment ends in its own `*/`, not in the one that overlaps its start. -/
def endsComment (text : List Char) : Bool :=
  4 ≤ text.length && ['*', '/'].isSuffixOf text

/-- A string ends in its own quote, with an even number of backslashes before
it. -/
def endsString : List Char → Bool
  | [] => false
  | quote :: body =>
    match body.reverse with
    | [] => false
    | last :: inner => last == quote && (inner.takeWhile (· == '\\')).length % 2 == 0

/-- A url ends in a parenthesis. -/
def endsUrl (text : List Char) : Bool := text.getLast? == some ')'

/-- Every bracket still open is closed by the last character of the text, or
the innermost of those that are not. -/
def closeAll (last : Option Char) : List Char → Except HookFault Unit
  | [] => .ok ()
  | closer :: closers =>
    if last = some closer then closeAll last closers else .error (.openBlock closer)

/-- Walks the lexemes with the closing brackets that are due, innermost
first. -/
def checkLexemes (last : Option Char) : List Char → List Lexeme → Except HookFault Unit
  | due, [] => closeAll last due
  | due, l :: ls =>
    match l.token with
    | .openCurly | .closeCurly => .error .brace
    | .semicolon => .error .semicolon
    | .closeParen => match due with
      | ')' :: due => checkLexemes last due ls
      | _ => .error .unbalanced
    | .closeSquare => match due with
      | ']' :: due => checkLexemes last due ls
      | _ => .error .unbalanced
    | .badString | .badUrl => .error .malformed
    | .comment _ => if endsComment l.text then checkLexemes last due ls else .error .openComment
    | .string _ => if endsString l.text then checkLexemes last due ls else .error .openString
    | .url _ => if endsUrl l.text then checkLexemes last due ls else .error .openUrl
    | .function _ | .openParen => checkLexemes last (')' :: due) ls
    | .openSquare => checkLexemes last (']' :: due) ls
    | _ => checkLexemes last due ls

/-- Checks the tokens of a whole text. -/
def checkTokens (cs : List Char) : Except HookFault Unit :=
  checkLexemes cs.getLast? [] (lexemes cs)

/-! ## Hooks -/

/-- What follows an at-keyword, if the text starts with it and goes on with a
blank. -/
def prelude? (rule : AtRule) (cs : List Char) : Option (List Char) :=
  let keyword := rule.keyword.toList
  if keyword.isPrefixOf cs then
    match cs.drop keyword.length with
    | [] => none
    | c :: rest => if Text.isBlank c then some (c :: rest) else none
  else none

/-- The at-rule a text starts with. -/
def findAtRule? (cs : List Char) : Option (AtRule × List Char) :=
  AtRule.all.findSome? fun rule => (prelude? rule cs).map (rule, ·)

/-- The hook of a text. -/
def parse (text : String) : Except HookFault Hook :=
  let cs := text.toList
  if cs.head? = some '@' then
    match findAtRule? cs with
    | none => .error .unsupportedAtRule
    | some (rule, rest) =>
      if rest.all Text.isBlank then .error .noPrelude
      else do
        checkTokens cs
        return .atRule rule text
  else if cs.any (· == '&') then do
    checkTokens cs
    return .selector text
  else .error .noElement

end Hook

end VarLogic
