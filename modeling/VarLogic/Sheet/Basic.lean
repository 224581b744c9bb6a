/-
Style sheets. A sheet has the declarations of the `*` block, which give every
toggle its state at rest, and one rule a hook, which flips the hook's pair
where the hook matches.
-/
import VarLogic.Hook.Basic
import VarLogic.Sheet.Layout
import VarLogic.ShortId

namespace VarLogic

/-- Declarations that apply where a hook matches. -/
structure Rule where
  hook : Hook
  declarations : List Declaration
deriving DecidableEq, Repr

structure Sheet where
  /-- The `*` block. -/
  defaults : List Declaration := []
  /-- The rules, in the order of their hooks' definitions. -/
  rules : List Rule := []
deriving DecidableEq, Repr

namespace Sheet

/-- A sheet without content. -/
def empty : Sheet := {}

def isEmpty (sheet : Sheet) : Bool := sheet.defaults.isEmpty && sheet.rules.isEmpty

/-! ## Building -/

/-- The pair of a hook at rest: off. -/
def atRest (id : String) : List Declaration :=
  [⟨Toggle.property id false, "initial"⟩, ⟨Toggle.property id true, ""⟩]

/-- The pair of a hook that matches: on. -/
def whileActive (id : String) : List Declaration :=
  [⟨Toggle.property id false, ""⟩, ⟨Toggle.property id true, "initial"⟩]

/-- Adds the pair of a hook and the rule that flips it. -/
def addHook (sheet : Sheet) (hook : Hook) (id : String) : Sheet where
  defaults := sheet.defaults ++ atRest id
  rules := sheet.rules ++ [⟨hook, whileActive id⟩]

/-- Adds a declaration to the `*` block. -/
def addDefault (sheet : Sheet) (d : Declaration) : Sheet :=
  { sheet with defaults := sheet.defaults ++ [d] }

/-! ## Merging -/

/-- Adds a declaration unless its property is declared already. -/
def mergeDefault (defaults : List Declaration) (d : Declaration) : List Declaration :=
  if defaults.any (·.property = d.property) then defaults else defaults ++ [d]

/-- Adds a rule unless it is there already. -/
def mergeRule (rules : List Rule) (r : Rule) : List Rule :=
  if r ∈ rules then rules else rules ++ [r]

/-- Adds what another sheet has and this one has not. -/
def merge (sheet other : Sheet) : Sheet where
  defaults := other.defaults.foldl mergeDefault sheet.defaults
  rules := other.rules.foldl mergeRule sheet.rules

/-! ## Texts -/

/-- The text whose id is the sheet's key: every property and every hook, each
with a semicolon. -/
def keyText (sheet : Sheet) : String :=
  String.join (sheet.defaults.map fun d => d.property ++ ";") ++
    String.join (sheet.rules.map fun r => r.hook.text ++ ";")

/-- Tells sheets of different content apart. -/
def key (sheet : Sheet) : String := ShortId.ofText sheet.keyText

end Sheet

namespace Rule

/-- The rule as CSS; an at-rule stands around a `*` block. -/
def render (rule : Rule) (layout : Layout) : String :=
  match rule.hook with
  | .selector _ => layout.block 0 rule.hook.scopedSelector rule.declarations
  | .atRule _ text =>
    text ++ layout.space ++ "\x7b" ++ layout.newline ++
      layout.block 1 "*" rule.declarations ++ layout.newline ++ "\x7d"

end Rule

namespace Sheet

/-- The blocks of a sheet: the `*` block, if there is something in it, and the
rules. -/
def blocks (sheet : Sheet) (layout : Layout) : List String :=
  (if sheet.defaults.isEmpty then [] else [layout.block 0 "*" sheet.defaults]) ++
    sheet.rules.map (·.render layout)

/-- The sheet as CSS. -/
def render (sheet : Sheet) (layout : Layout) : String :=
  String.intercalate layout.newline (sheet.blocks layout)

end Sheet

end VarLogic
