import TreeRules.Builder.Basic
import TreeRules.Builder.Run
import TreeRules.Capture
import TreeRules.Check
import TreeRules.Check.HoleTable
import TreeRules.Check.Holes
import TreeRules.Check.Shape
import TreeRules.Check.Types
import TreeRules.Compile.Builder
import TreeRules.Compile.Compilation
import TreeRules.Compile.Error
import TreeRules.Compile.File
import TreeRules.Compile.Matcher
import TreeRules.Compile.NamePool
import TreeRules.Config
import TreeRules.Diagnostic.Basic
import TreeRules.Diagnostic.Kind
import TreeRules.Engine
import TreeRules.Factory
import TreeRules.Hierarchy.Basic
import TreeRules.Hierarchy.Json
import TreeRules.Hierarchy.Load
import TreeRules.Hole
import TreeRules.Matcher.Basic
import TreeRules.Matcher.Run
import TreeRules.Parser.File
import TreeRules.Parser.Pattern
import TreeRules.Parser.State
import TreeRules.Parser.Template
import TreeRules.Pattern.Basic
import TreeRules.Pattern.Printer
import TreeRules.Program.Basic
import TreeRules.Program.Listing
import TreeRules.Proofs.Builder.Indexed
import TreeRules.Proofs.Builder.Strict
import TreeRules.Proofs.Capture.Lossless
import TreeRules.Proofs.Capture.Store
import TreeRules.Proofs.Check.Declared
import TreeRules.Proofs.Check.Duplicates
import TreeRules.Proofs.Check.Firm
import TreeRules.Proofs.Check.FirstOccurrences
import TreeRules.Proofs.Check.HoleTable
import TreeRules.Proofs.Check.Holes
import TreeRules.Proofs.Check.Occurrences
import TreeRules.Proofs.Check.Shape
import TreeRules.Proofs.Check.Types
import TreeRules.Proofs.Check.WellShaped
import TreeRules.Proofs.Compile.Alike
import TreeRules.Proofs.Compile.Calls
import TreeRules.Proofs.Compile.Children
import TreeRules.Proofs.Compile.Closed
import TreeRules.Proofs.Compile.Dependence
import TreeRules.Proofs.Compile.InlineLimit
import TreeRules.Proofs.Compile.Languages
import TreeRules.Proofs.Compile.Linked
import TreeRules.Proofs.Compile.Meaning
import TreeRules.Proofs.Compile.Names
import TreeRules.Proofs.Compile.Negation
import TreeRules.Proofs.Compile.Parts
import TreeRules.Proofs.Compile.Program
import TreeRules.Proofs.Compile.Register
import TreeRules.Proofs.Compile.Session
import TreeRules.Proofs.Compile.Sharing
import TreeRules.Proofs.Compile.Sound
import TreeRules.Proofs.Compile.Tables
import TreeRules.Proofs.Compile.Template
import TreeRules.Proofs.Compile.TypeTest
import TreeRules.Proofs.Engine.Bound
import TreeRules.Proofs.Engine.Bounded
import TreeRules.Proofs.Engine.Sweep
import TreeRules.Proofs.Hierarchy.Additions
import TreeRules.Proofs.Hierarchy.Ancestry
import TreeRules.Proofs.Hierarchy.Arrangement
import TreeRules.Proofs.Hierarchy.Cycle
import TreeRules.Proofs.Hierarchy.Reachable
import TreeRules.Proofs.Matcher.Stores
import TreeRules.Proofs.Parser.Alongside
import TreeRules.Proofs.Parser.BlockEnd
import TreeRules.Proofs.Parser.Budget
import TreeRules.Proofs.Parser.Course
import TreeRules.Proofs.Parser.Cursor
import TreeRules.Proofs.Parser.Descent
import TreeRules.Proofs.Parser.Excerpt
import TreeRules.Proofs.Parser.Faulty
import TreeRules.Proofs.Parser.File
import TreeRules.Proofs.Parser.Follow
import TreeRules.Proofs.Parser.Form
import TreeRules.Proofs.Parser.Grammar
import TreeRules.Proofs.Parser.Item
import TreeRules.Proofs.Parser.Leaf
import TreeRules.Proofs.Parser.Lenient
import TreeRules.Proofs.Parser.Limits
import TreeRules.Proofs.Parser.Nested
import TreeRules.Proofs.Parser.Outcome
import TreeRules.Proofs.Parser.Printed
import TreeRules.Proofs.Parser.Relation
import TreeRules.Proofs.Parser.RoundTrip
import TreeRules.Proofs.Parser.Rule
import TreeRules.Proofs.Parser.Safe
import TreeRules.Proofs.Parser.Sequence
import TreeRules.Proofs.Parser.Slice
import TreeRules.Proofs.Parser.Statements
import TreeRules.Proofs.Parser.Success
import TreeRules.Proofs.Parser.Taken
import TreeRules.Proofs.Parser.Template
import TreeRules.Proofs.Parser.Written
import TreeRules.Proofs.Pattern.Holes
import TreeRules.Proofs.Pattern.Key
import TreeRules.Proofs.Pattern.Meaning
import TreeRules.Proofs.Pattern.Orderly
import TreeRules.Proofs.Pattern.Parts
import TreeRules.Proofs.Pattern.Tested
import TreeRules.Proofs.Program.Alike
import TreeRules.Proofs.Program.Indexed
import TreeRules.Proofs.Program.Linked
import TreeRules.Proofs.Program.Renaming
import TreeRules.Proofs.Rule.Moved
import TreeRules.Proofs.Rule.Words
import TreeRules.Proofs.Strategy.Captures
import TreeRules.Proofs.Strategy.Division
import TreeRules.Proofs.Strategy.Lookahead
import TreeRules.Proofs.Strategy.Lossless
import TreeRules.Proofs.Strategy.Queue
import TreeRules.Proofs.Template.Dependence
import TreeRules.Proofs.Text.Quote
import TreeRules.Proofs.Token.Escape
import TreeRules.Proofs.Token.Local
import TreeRules.Proofs.Token.Order
import TreeRules.Proofs.Token.Pending
import TreeRules.Proofs.Token.Pieces
import TreeRules.Proofs.Token.Rules
import TreeRules.Proofs.Token.Slices
import TreeRules.Proofs.Token.Tiling
import TreeRules.Rule
import TreeRules.RuleSet
import TreeRules.Snippet
import TreeRules.Snippet.Canvas
import TreeRules.Snippet.Line
import TreeRules.Snippet.Mark
import TreeRules.Snippet.Window
import TreeRules.Strategy.Basic
import TreeRules.Strategy.Run
import TreeRules.Symbol
import TreeRules.Template
import TreeRules.Text.Extending
import TreeRules.Text.Printable
import TreeRules.Text.Quote
import TreeRules.Text.Span
import TreeRules.Text.Width
import TreeRules.Token.Basic
import TreeRules.Token.Escape
import TreeRules.Token.Lexer
import TreeRules.Tree
