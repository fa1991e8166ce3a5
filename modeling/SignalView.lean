import SignalView.Main
import SignalView.CommandLine.Workspace
import SignalView.Proofs.Token.Gap
import SignalView.Proofs.Token.Place
import SignalView.Proofs.Token.Spelling
import SignalView.Proofs.Token.Tiling
import SignalView.Proofs.Token.Again
import SignalView.Proofs.Token.Cut
import SignalView.Proofs.Text.Quoting
import SignalView.Proofs.Token.Quoting
import SignalView.Proofs.Token.Origin
import SignalView.Proofs.Token.Records
import SignalView.Proofs.Token.Tolerance
import SignalView.Proofs.Token.Order
import SignalView.Proofs.Token.Operators
import SignalView.Proofs.Token.Succession
import SignalView.Proofs.Token.Block
import SignalView.Proofs.Syntax.Places
import SignalView.Proofs.Syntax.Paths
import SignalView.Proofs.Syntax.Parts
import SignalView.Proofs.Syntax.Nesting
import SignalView.Proofs.Grammar.Outcome
import SignalView.Proofs.Grammar.Reading
import SignalView.Proofs.Grammar.Tape
import SignalView.Proofs.Grammar.Types
import SignalView.Proofs.Grammar.Operands
import SignalView.Proofs.Grammar.Expressions
import SignalView.Proofs.Grammar.Declarations
import SignalView.Proofs.Grammar.Statements
import SignalView.Proofs.Grammar.Attempts
import SignalView.Proofs.Grammar.Termination
import SignalView.Proofs.Grammar.Recovery
import SignalView.Proofs.Grammar.Levels
import SignalView.Proofs.Grammar.Nesting
import SignalView.Proofs.Grammar.Depth
import SignalView.Proofs.Lowering.Outcome
import SignalView.Proofs.Expression.Term
import SignalView.Proofs.Expression.Shape
import SignalView.Proofs.Expression.Parsed
import SignalView.Proofs.Expression.Passed
import SignalView.Proofs.Expression.Statement
import SignalView.Proofs.Expression.Lexed
import SignalView.Proofs.Expression.Written
import SignalView.Proofs.Expression.RoundTrip
import SignalView.Proofs.Expression.Grouping
import SignalView.Proofs.Expression.Consequent
import SignalView.Proofs.Token.Dotted
import SignalView.Proofs.Expression.NumberMember
import SignalView.Proofs.Expression.Children
import SignalView.Proofs.Grammar.TypedPrograms
import SignalView.Proofs.Text.Sorted
import SignalView.Proofs.View.Places
import SignalView.Proofs.Lowering.Rules
import SignalView.Proofs.Lowering.Expressions
import SignalView.Proofs.Lowering.Statements
import SignalView.Proofs.Grammar.Imports
import SignalView.Proofs.Script.Imports
import SignalView.Proofs.Script.ImportText
import SignalView.Proofs.Script.MergedImports
import SignalView.Proofs.Script.ImportLosses
import SignalView.Proofs.Script.ImportOrder
import SignalView.Proofs.Script.ImportTokens
import SignalView.Proofs.Grammar.ImportForms
import SignalView.Proofs.Script.Rules
import SignalView.Proofs.Script.Expressions
import SignalView.Proofs.Script.Markup
import SignalView.Proofs.Script.Statements
import SignalView.Proofs.Compilation.Reading
import SignalView.Proofs.Compilation.Completeness
import SignalView.Proofs.Compilation.Components
import SignalView.Proofs.Compilation.Outcome
import SignalView.Proofs.Compilation.Limits
import SignalView.Proofs.Compilation.Names
import SignalView.Proofs.Scope.Extension
import SignalView.Proofs.Scope.Stack
import SignalView.Proofs.Lowering.Scopes
import SignalView.Proofs.Compilation.Visibility
import SignalView.Proofs.View.Subviews
import SignalView.Proofs.View.Sound
import SignalView.Proofs.Lowering.Patterns
import SignalView.Proofs.Lowering.Idle
import SignalView.Proofs.Lowering.Accounts
import SignalView.Proofs.Lowering.Views
import SignalView.Proofs.Lowering.Items
import SignalView.Proofs.View.Calls
import SignalView.Proofs.Script.Account.Rules
import SignalView.Proofs.Script.Account.Markup
import SignalView.Proofs.Script.Account.Expressions
import SignalView.Proofs.Script.Account.Statements
import SignalView.Proofs.Script.Account.Programs
import SignalView.Proofs.Text.Parens
import SignalView.Proofs.Script.Parens.Rules
import SignalView.Proofs.Script.Parens.Expressions
import SignalView.Proofs.Script.Parens.Markup
import SignalView.Proofs.Script.Parens.Statements
import SignalView.Proofs.Compilation.Runtime
import SignalView.Proofs.Compilation.ImportBlock
import SignalView.Proofs.Token.TypeArguments
import SignalView.Proofs.Syntax.Ways
import SignalView.Proofs.Reactive.Calls
import SignalView.Proofs.Reactive.Dependencies
import SignalView.Proofs.Component.Kinds
import SignalView.Proofs.Script.Formats.Rules
import SignalView.Proofs.Script.Formats.Expressions
import SignalView.Proofs.Script.Formats.Markup
import SignalView.Proofs.Script.Formats.Statements
import SignalView.Proofs.Script.Formats.Programs
import SignalView.Proofs.Compilation.Formats
import SignalView.Proofs.Reactive.Attributes
import SignalView.Proofs.Component.Annotation
import SignalView.Proofs.Component.Verdict
import SignalView.Proofs.View.Facts
import SignalView.Proofs.Lowering.Facts.Expressions
import SignalView.Proofs.Lowering.Facts.Markup
import SignalView.Proofs.Lowering.Facts.Statements
import SignalView.Proofs.Compilation.Static
import SignalView.Proofs.Compilation.Destructuring
import SignalView.Proofs.Markup.Entity
import SignalView.Proofs.Report.Excerpt
import SignalView.Proofs.Compilation.WellFormed
import SignalView.Proofs.Grammar.Extents
import SignalView.Proofs.Grammar.Ranges
import SignalView.Proofs.Binding.Scoping
import SignalView.Proofs.Binding.Trace
import SignalView.Proofs.Binding.Rules
import SignalView.Proofs.Binding.Expressions
import SignalView.Proofs.Binding.Statements
import SignalView.Proofs.Compilation.Renaming
