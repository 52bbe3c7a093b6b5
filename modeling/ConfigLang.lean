import ConfigLang.Text.Base64
import ConfigLang.Text.Blank
import ConfigLang.Text.Case
import ConfigLang.Text.Quoted
import ConfigLang.Text.Search
import ConfigLang.Decimal.Layout
import ConfigLang.Calendar.Reader
import ConfigLang.Token.Lexeme
import ConfigLang.Token.Lexer
import ConfigLang.Expr
import ConfigLang.Literal
import ConfigLang.Tree.Merge
import ConfigLang.Parse.Expr
import ConfigLang.Parse.Document
import ConfigLang.Decimal.Mean
import ConfigLang.Value.Arithmetic
import ConfigLang.Eval.Evaluate
import ConfigLang.Source.Location
import ConfigLang.Source.Bundle
import ConfigLang.Source.FileTree
import ConfigLang.Json
import ConfigLang.Tree.Truncate
import ConfigLang.Tree.Weight
import ConfigLang.Expand.Basic
import ConfigLang.Main
import ConfigLang.Proofs.Running
import ConfigLang.Proofs.Keyed
import ConfigLang.Proofs.Eval.Locality
import ConfigLang.Proofs.Token.Names
import ConfigLang.Proofs.Tree.Tidy
import ConfigLang.Proofs.Tree.Combine
import ConfigLang.Proofs.Tree.Overlay
import ConfigLang.Proofs.Tree.Weight
import ConfigLang.Proofs.Tree.Rearranged
import ConfigLang.Proofs.Parse.Tidy
import ConfigLang.Proofs.Expand.Arguments
import ConfigLang.Proofs.Expand.Tidy
import ConfigLang.Proofs.Expand.Reading
import ConfigLang.Proofs.Expand.Overlay
import ConfigLang.Proofs.Expand.Relocation
import ConfigLang.Proofs.Expand.Comparison
import ConfigLang.Proofs.Expand.Termination
import ConfigLang.Proofs.Expand.Inclusion
import ConfigLang.Proofs.Expand.Declared
import ConfigLang.Proofs.Expand.Scoping
import ConfigLang.Proofs.Expand.Course
import ConfigLang.Proofs.Expand.Requests
import ConfigLang.Proofs.Expand.Frame
import ConfigLang.Proofs.Parse.Listing
import ConfigLang.Proofs.Expand.Literal
import ConfigLang.Proofs.Document.References
import ConfigLang.Proofs.Document.Search
import ConfigLang.Proofs.Document.Environment
import ConfigLang.Proofs.Document.Memo
import ConfigLang.Proofs.Document.Built
import ConfigLang.Proofs.Document.Value
import ConfigLang.Proofs.Document.Inner
import ConfigLang.Proofs.Document.Leaves
import ConfigLang.Proofs.Document.Paths
import ConfigLang.Proofs.Document.Projection
import ConfigLang.Proofs.Document.Alike
import ConfigLang.Proofs.Document.Part
import ConfigLang.Proofs.Document.PartProjection
import ConfigLang.Proofs.Document.Schedule
import ConfigLang.Proofs.Document.Scheduled
import ConfigLang.Proofs.Document.Occurrences
import ConfigLang.Proofs.Document.Projected
import ConfigLang.Proofs.Document.Once
import ConfigLang.Proofs.Document.Nesting
import ConfigLang.Proofs.Document.Rearranged
import ConfigLang.Proofs.Parse.Grammar
import ConfigLang.Proofs.Parse.Precedence
import ConfigLang.Proofs.Token.Coverage
import ConfigLang.Proofs.Parse.Context
import ConfigLang.Proofs.Token.Seam
import ConfigLang.Proofs.Token.Numbers
import ConfigLang.Proofs.Token.Moments
import ConfigLang.Proofs.Token.Front
import ConfigLang.Proofs.Token.Sign
import ConfigLang.Proofs.Token.Splice
import ConfigLang.Proofs.Token.Calendar
import ConfigLang.Proofs.Token.Numeral
import ConfigLang.Proofs.Eval.Same
import ConfigLang.Proofs.Eval.Parameters
import ConfigLang.Proofs.Eval.Scope
import ConfigLang.Proofs.Eval.Effects
import ConfigLang.Proofs.Document.Cycles
import ConfigLang.Proofs.Parse.Respelled
import ConfigLang.Proofs.Parse.Spacing
import ConfigLang.Proofs.Tree.Grouped
import ConfigLang.Proofs.Parse.Layout
import ConfigLang.Proofs.Parse.Bodies
import ConfigLang.Proofs.Tree.Bare
import ConfigLang.Proofs.Tree.Mention
import ConfigLang.Proofs.Tree.Apart
import ConfigLang.Proofs.Parse.Annotated
import ConfigLang.Proofs.Parse.Comments
import ConfigLang.Proofs.Token.Integers
import ConfigLang.Proofs.Document.Strings
import ConfigLang.Proofs.Parse.Ordered
import ConfigLang.Proofs.Tree.Pruned
import ConfigLang.Proofs.Expand.Alike
import ConfigLang.Proofs.Expand.Pruned
import ConfigLang.Proofs.Document.Skipped
import ConfigLang.Proofs.Tree.Layers
import ConfigLang.Proofs.Tree.Levels
import ConfigLang.Proofs.Token.Written
import ConfigLang.Proofs.Calendar.Reading
import ConfigLang.Proofs.Calendar.Literals
import ConfigLang.Proofs.Calendar.Printing
import ConfigLang.Proofs.Document.Items
import ConfigLang.Proofs.Token.Heredocs
import ConfigLang.Proofs.Expand.Convention
import ConfigLang.Proofs.Calendar.Days
import ConfigLang.Proofs.Calendar.Instants
import ConfigLang.Proofs.Eval.Progression
import ConfigLang.Proofs.Parse.Phrase
import ConfigLang.Proofs.Parse.Readable
import ConfigLang.Proofs.Parse.Punctuation
import ConfigLang.Proofs.Tree.Spelled
import ConfigLang.Proofs.Parse.Spelled
import ConfigLang.Proofs.Expand.Spelled
import ConfigLang.Proofs.Command
import ConfigLang.Proofs.Parse.Loops
import ConfigLang.Proofs.Parse.Consumption
import ConfigLang.Proofs.Eval.Integers
import ConfigLang.Proofs.Eval.Extremes
import ConfigLang.Proofs.Token.Spelling
import ConfigLang.Proofs.Token.Order
import ConfigLang.Proofs.Parse.Wording
import ConfigLang.Proofs.Parse.Start
import ConfigLang.Proofs.Expand.Placing
import ConfigLang.Proofs.Expand.Reached
