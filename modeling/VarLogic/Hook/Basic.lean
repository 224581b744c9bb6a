/-
Hooks: what a condition is made of. A hook is a selector that mentions the
styled element as `&`, such as `&:hover` or `.dark &`, or the head of an
at-rule. Its text goes verbatim into the emitted sheet.
-/
namespace VarLogic

/-- The at-rules a hook may be. -/
inductive AtRule where
  | media
  | container
  | supports
deriving DecidableEq, Repr

namespace AtRule

/-- The keyword, with its `@`. -/
def keyword : AtRule → String
  | media => "@media"
  | container => "@container"
  | supports => "@supports"

def all : List AtRule := [media, container, supports]

end AtRule

inductive Hook where
  /-- A selector that mentions the styled element. -/
  | selector (text : String)
  /-- The head of an at-rule; inside it every element matches. -/
  | atRule (rule : AtRule) (text : String)
deriving DecidableEq, Repr

namespace Hook

/-- The text as written. -/
def text : Hook → String
  | selector text => text
  | atRule _ text => text

/-- Whether it stands around its rule as an at-rule. -/
def isAtRule : Hook → Bool
  | selector _ => false
  | atRule _ _ => true

/-- The selector of the rule that the hook scopes: every `&` of a selector
becomes `*`, and inside an at-rule every element matches. -/
def scopedSelector : Hook → String
  | selector text => text.map fun c => if c = '&' then '*' else c
  | atRule _ _ => "*"

/-- A leaf is written as a hook, not as a name: it mentions the element or
starts like an at-rule. -/
def isHookSyntax (text : String) : Bool :=
  text.toList.any (· == '&') || text.toList.head? == some '@'

end Hook

end VarLogic
