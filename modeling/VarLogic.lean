import VarLogic.Condition.Basic
import VarLogic.Condition.Faults
import VarLogic.Condition.Json
import VarLogic.Condition.Meaning
import VarLogic.Condition.Normal
import VarLogic.Condition.Scan
import VarLogic.Css.Delimited
import VarLogic.Css.Lexer
import VarLogic.Css.Name
import VarLogic.Css.Numeric
import VarLogic.Css.Starred
import VarLogic.Css.Token
import VarLogic.Decimal.Double
import VarLogic.Decimal.Shortest
import VarLogic.Decimal.Written
import VarLogic.Definitions
import VarLogic.Document
import VarLogic.Element
import VarLogic.Error
import VarLogic.Formula
import VarLogic.Formula.Regrouping
import VarLogic.Hook.Basic
import VarLogic.Hook.Parse
import VarLogic.Json.NumberLiteral
import VarLogic.Json.Reader
import VarLogic.Json.Value
import VarLogic.Json.Writer
import VarLogic.Json.Written
import VarLogic.Misfit
import VarLogic.Network
import VarLogic.Proofs.Condition.Calls
import VarLogic.Proofs.Condition.Effects
import VarLogic.Proofs.Condition.Evaluation
import VarLogic.Proofs.Condition.Faults
import VarLogic.Proofs.Condition.Leaves
import VarLogic.Proofs.Condition.Normal
import VarLogic.Proofs.Condition.Parsed
import VarLogic.Proofs.Condition.Renaming
import VarLogic.Proofs.Condition.Scan
import VarLogic.Proofs.Condition.Substitution
import VarLogic.Proofs.Condition.Truth
import VarLogic.Proofs.Condition.Written
import VarLogic.Proofs.Css.Boundary
import VarLogic.Proofs.Css.Bracket
import VarLogic.Proofs.Css.Delimited
import VarLogic.Proofs.Css.EndMark
import VarLogic.Proofs.Css.Ended
import VarLogic.Proofs.Css.Lexer
import VarLogic.Proofs.Css.Name
import VarLogic.Proofs.Css.Numeric
import VarLogic.Proofs.Css.Plain
import VarLogic.Proofs.Css.Rules
import VarLogic.Proofs.Css.Starred
import VarLogic.Proofs.Css.StarredLexer
import VarLogic.Proofs.Css.Url
import VarLogic.Proofs.Element.Agreement
import VarLogic.Proofs.Element.Declared
import VarLogic.Proofs.Element.References
import VarLogic.Proofs.Element.Substitution
import VarLogic.Proofs.Formula.Asked
import VarLogic.Proofs.Formula.Branches
import VarLogic.Proofs.Formula.Regrouping
import VarLogic.Proofs.Formula.ValueText
import VarLogic.Proofs.Hook.Accepted
import VarLogic.Proofs.Hook.Containment
import VarLogic.Proofs.Hook.Ends
import VarLogic.Proofs.Hook.Grammar
import VarLogic.Proofs.Hook.Parse
import VarLogic.Proofs.Hook.Scoping
import VarLogic.Proofs.Json.Read
import VarLogic.Proofs.Json.Sorted
import VarLogic.Proofs.Json.Strings
import VarLogic.Proofs.Json.Trees
import VarLogic.Proofs.Json.Written
import VarLogic.Proofs.Network
import VarLogic.Proofs.Network.Leaves
import VarLogic.Proofs.Network.Nodes
import VarLogic.Proofs.Props.Calls
import VarLogic.Proofs.Props.InlineStyle
import VarLogic.Proofs.Props.Interleaving
import VarLogic.Proofs.Props.Meaning
import VarLogic.Proofs.Props.Order
import VarLogic.Proofs.Props.Resolve
import VarLogic.Proofs.Props.Routing
import VarLogic.Proofs.Props.WrittenOut
import VarLogic.Proofs.Scope.Build
import VarLogic.Proofs.Scope.Conditions
import VarLogic.Proofs.Scope.Expansion
import VarLogic.Proofs.Scope.Extension
import VarLogic.Proofs.Scope.Faults
import VarLogic.Proofs.Scope.Generated
import VarLogic.Proofs.Scope.Grouping
import VarLogic.Proofs.Scope.Hashed
import VarLogic.Proofs.Scope.Invariant
import VarLogic.Proofs.Scope.Key
import VarLogic.Proofs.Scope.Meaning
import VarLogic.Proofs.Scope.Merged
import VarLogic.Proofs.Scope.Names
import VarLogic.Proofs.Scope.Order
import VarLogic.Proofs.Scope.Reading
import VarLogic.Proofs.Scope.Sheet
import VarLogic.Proofs.Scope.Sight
import VarLogic.Proofs.Scope.Toggles
import VarLogic.Proofs.Scope.Vacuity
import VarLogic.Proofs.Settings.Entries
import VarLogic.Proofs.Settings.Written
import VarLogic.Proofs.Sheet.Algebra
import VarLogic.Proofs.Sheet.Calls
import VarLogic.Proofs.Sheet.Emitted
import VarLogic.Proofs.Sheet.Issued
import VarLogic.Proofs.Sheet.Key
import VarLogic.Proofs.Sheet.Layout
import VarLogic.Proofs.Sheet.Winning
import VarLogic.Proofs.ShortId
import VarLogic.Proofs.ShortId.Collisions
import VarLogic.Proofs.ShortId.Fold
import VarLogic.Proofs.ShortId.Numeral
import VarLogic.Props.Config
import VarLogic.Props.CssForm
import VarLogic.Props.InlineStyle
import VarLogic.Props.Keys
import VarLogic.Props.Meaning
import VarLogic.Props.Resolve
import VarLogic.Scope.Basic
import VarLogic.Scope.Build
import VarLogic.Scope.Expansion
import VarLogic.Scope.Faults
import VarLogic.Scope.Hashed
import VarLogic.Scope.View
import VarLogic.Settings
import VarLogic.Settings.File
import VarLogic.Sheet.Basic
import VarLogic.Sheet.Issued
import VarLogic.Sheet.Layout
import VarLogic.ShortId
import VarLogic.Text.Blank
import VarLogic.Text.Escaped
import VarLogic.Text.Quoted
import VarLogic.Text.Utf16
import VarLogic.Toggle
import VarLogic.Toml.Lexical
import VarLogic.Toml.Reader
import VarLogic.Toml.Scalar
import VarLogic.Toml.Table
