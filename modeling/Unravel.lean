import Unravel.Error
import Unravel.Eval.Builtin
import Unravel.Eval.Expression
import Unravel.Eval.Method
import Unravel.Eval.Operation
import Unravel.Journal.Basic
import Unravel.Journal.Event
import Unravel.Journal.Stats
import Unravel.Numeral.Angle
import Unravel.Numeral.Arc
import Unravel.Numeral.Decimal
import Unravel.Numeral.Double
import Unravel.Numeral.Exponential
import Unravel.Numeral.Fine
import Unravel.Numeral.Function
import Unravel.Numeral.Logarithm
import Unravel.Numeral.Places
import Unravel.Numeral.Polynomial
import Unravel.Numeral.Read
import Unravel.Program.Basic
import Unravel.Program.Edit
import Unravel.Program.Stepwise
import Unravel.Proofs.Eval.Confined
import Unravel.Proofs.Eval.Congruence
import Unravel.Proofs.Eval.Keyed
import Unravel.Proofs.Eval.Outside
import Unravel.Proofs.Eval.Placed
import Unravel.Proofs.Eval.Position
import Unravel.Proofs.Eval.Property
import Unravel.Proofs.Eval.Renamed
import Unravel.Proofs.Eval.RoundTrip
import Unravel.Proofs.Eval.Spelled
import Unravel.Proofs.Eval.Step
import Unravel.Proofs.Eval.Visited
import Unravel.Proofs.Flow.Declared
import Unravel.Proofs.Flow.Path
import Unravel.Proofs.Numeral.Digits
import Unravel.Proofs.Numeral.Exact
import Unravel.Proofs.Numeral.Fixed
import Unravel.Proofs.Numeral.Radix
import Unravel.Proofs.Numeral.Rounded
import Unravel.Proofs.Program.Attach
import Unravel.Proofs.Program.Change
import Unravel.Proofs.Program.Edit
import Unravel.Proofs.Program.Forget
import Unravel.Proofs.Program.Meaning
import Unravel.Proofs.Program.Orderly
import Unravel.Proofs.Program.Reached
import Unravel.Proofs.Program.Recomposed
import Unravel.Proofs.Program.Reissued
import Unravel.Proofs.Program.Relocated
import Unravel.Proofs.Program.Remnant
import Unravel.Proofs.Program.Reworded
import Unravel.Proofs.Program.Steady
import Unravel.Proofs.Program.Stepwise
import Unravel.Proofs.Program.Verify
import Unravel.Proofs.Program.Weight
import Unravel.Proofs.Schedule.Settled
import Unravel.Proofs.Schedule.Traced
import Unravel.Proofs.Scope.Added
import Unravel.Proofs.Scope.Alike
import Unravel.Proofs.Scope.Build
import Unravel.Proofs.Scope.Classified
import Unravel.Proofs.Scope.Declaration
import Unravel.Proofs.Scope.Incoming
import Unravel.Proofs.Scope.Lexicon
import Unravel.Proofs.Scope.Position
import Unravel.Proofs.Scope.Region
import Unravel.Proofs.Scope.Removal
import Unravel.Proofs.Scope.Renamed
import Unravel.Proofs.Scope.Resolution
import Unravel.Proofs.Scope.Sealed
import Unravel.Proofs.Scope.Table
import Unravel.Proofs.Scope.Update
import Unravel.Proofs.Scope.WellBound
import Unravel.Proofs.Simplify.Along
import Unravel.Proofs.Simplify.Around
import Unravel.Proofs.Simplify.Between
import Unravel.Proofs.Simplify.Built
import Unravel.Proofs.Simplify.Called
import Unravel.Proofs.Simplify.Clauses
import Unravel.Proofs.Simplify.Cleared
import Unravel.Proofs.Simplify.Collapsed
import Unravel.Proofs.Simplify.DeclaratorWeight
import Unravel.Proofs.Simplify.Decoded
import Unravel.Proofs.Simplify.Dismantled
import Unravel.Proofs.Simplify.Dispatch
import Unravel.Proofs.Simplify.Dotted
import Unravel.Proofs.Simplify.Encoded
import Unravel.Proofs.Simplify.Evolved
import Unravel.Proofs.Simplify.Expanded
import Unravel.Proofs.Simplify.Expanding
import Unravel.Proofs.Simplify.Exposed
import Unravel.Proofs.Simplify.Filled
import Unravel.Proofs.Simplify.FlatLoop
import Unravel.Proofs.Simplify.FoldingWeight
import Unravel.Proofs.Simplify.Honest
import Unravel.Proofs.Simplify.Hygiene
import Unravel.Proofs.Simplify.Image
import Unravel.Proofs.Simplify.Inlined
import Unravel.Proofs.Simplify.Instance
import Unravel.Proofs.Simplify.Landing
import Unravel.Proofs.Simplify.Lighten
import Unravel.Proofs.Simplify.Links
import Unravel.Proofs.Simplify.Moved
import Unravel.Proofs.Simplify.Named
import Unravel.Proofs.Simplify.Orderly
import Unravel.Proofs.Simplify.Piece
import Unravel.Proofs.Simplify.Placing
import Unravel.Proofs.Simplify.Planned
import Unravel.Proofs.Simplify.Postponed
import Unravel.Proofs.Simplify.Protected
import Unravel.Proofs.Simplify.ProxyWeight
import Unravel.Proofs.Simplify.Pruned
import Unravel.Proofs.Simplify.ReadOnly
import Unravel.Proofs.Simplify.Rebuilt
import Unravel.Proofs.Simplify.Recorded
import Unravel.Proofs.Simplify.Restated
import Unravel.Proofs.Simplify.Retired
import Unravel.Proofs.Simplify.Rules
import Unravel.Proofs.Simplify.Run
import Unravel.Proofs.Simplify.Settling
import Unravel.Proofs.Simplify.Shown
import Unravel.Proofs.Simplify.Spliced
import Unravel.Proofs.Simplify.StatementWeight
import Unravel.Proofs.Simplify.Steadily
import Unravel.Proofs.Simplify.Surely
import Unravel.Proofs.Simplify.Swept
import Unravel.Proofs.Simplify.Template
import Unravel.Proofs.Simplify.Through
import Unravel.Proofs.Simplify.Unaliased
import Unravel.Proofs.Simplify.Unanimous
import Unravel.Proofs.Simplify.Unmissed
import Unravel.Proofs.Simplify.Unwrapped
import Unravel.Proofs.Source.Expression
import Unravel.Proofs.Source.Reader
import Unravel.Proofs.Source.Token
import Unravel.Proofs.Source.Unambiguous
import Unravel.Proofs.Syntax.Operand
import Unravel.Proofs.Syntax.Part
import Unravel.Proofs.Text.Escape
import Unravel.Proofs.Text.Search
import Unravel.Proofs.Tree.Assembly
import Unravel.Proofs.Tree.Copy
import Unravel.Proofs.Tree.Document
import Unravel.Proofs.Tree.Edit
import Unravel.Proofs.Tree.Linked
import Unravel.Proofs.Tree.Order
import Unravel.Proofs.Tree.Plain
import Unravel.Proofs.Tree.Reissued
import Unravel.Proofs.Tree.Sorted
import Unravel.Proofs.Tree.Term
import Unravel.Proofs.Tree.Weight
import Unravel.Schedule.Basic
import Unravel.Schedule.Engine
import Unravel.Schedule.Script
import Unravel.Scope.Basic
import Unravel.Scope.Resolve
import Unravel.Scope.Role
import Unravel.Simplify.Alias
import Unravel.Simplify.ArrayRead
import Unravel.Simplify.Basic
import Unravel.Simplify.Branch
import Unravel.Simplify.Call
import Unravel.Simplify.Chain
import Unravel.Simplify.ClassForm
import Unravel.Simplify.Config
import Unravel.Simplify.ConstantUse
import Unravel.Simplify.Context
import Unravel.Simplify.Decoder
import Unravel.Simplify.DottedCall
import Unravel.Simplify.Escapes
import Unravel.Simplify.FlatLoop
import Unravel.Simplify.Folding
import Unravel.Simplify.Marshal
import Unravel.Simplify.ObjectLiteral
import Unravel.Simplify.Primitive
import Unravel.Simplify.Proxy
import Unravel.Simplify.Rule
import Unravel.Simplify.Shape
import Unravel.Simplify.TableEntry
import Unravel.Simplify.Template
import Unravel.Simplify.Unused
import Unravel.Source.Name
import Unravel.Source.Print
import Unravel.Source.Quoted
import Unravel.Syntax.Node
import Unravel.Syntax.Operator
import Unravel.Syntax.Term
import Unravel.Text.Alphabet
import Unravel.Text.Blank
import Unravel.Text.Escape
import Unravel.Text.Letter
import Unravel.Text.Units
import Unravel.Tree.Basic
import Unravel.Tree.Graft
import Unravel.Value.Basic
import Unravel.Value.Compare
import Unravel.Value.Encode
