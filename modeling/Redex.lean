import Redex.Text.Blank
import Redex.Text.Digit
import Redex.Text.Printable
import Redex.Text.Literal
import Redex.Expr.Equality
import Redex.Reader.Stream
import Redex.Environment.Tree
import Redex.Interpreter.Trace
import Redex.Settings
import Redex.Scheduler.Command
import Redex.Main
import Redex.Proofs.Substitution
import Redex.Proofs.Rewriting.Silent
import Redex.Proofs.Rewriting.Rule
import Redex.Proofs.Rewriting.Passes
import Redex.Proofs.Rewriting.OneStep
import Redex.Proofs.Runs
import Redex.Proofs.Program
import Redex.Proofs.Transaction
import Redex.Proofs.Names
import Redex.Proofs.Reading
import Redex.Proofs.Display
import Redex.Proofs.Command
import Redex.Proofs.NormalForm
import Redex.Proofs.CallByValue
import Redex.Proofs.Interleaving
import Redex.Proofs.Cancellation
import Redex.Proofs.Scheduling
import Redex.Proofs.Preparation
import Redex.Proofs.TopLevel
import Redex.Proofs.Isolation
import Redex.Proofs.Inlining
import Redex.Proofs.Agreement
import Redex.Proofs.Grammar
import Redex.Proofs.Repair
import Redex.Proofs.Layout
import Redex.Proofs.Concatenation
import Redex.Proofs.Pieces
import Redex.Proofs.Lookahead
import Redex.Proofs.Failures
import Redex.Proofs.Unmentioned
import Redex.Proofs.Number.Decimal
import Redex.Proofs.Number.Coercion
import Redex.Proofs.RoundTrip
import Redex.Proofs.Undefined
import Redex.Proofs.Accessors
import Redex.Proofs.Binders
import Redex.Proofs.Closed
import Redex.Proofs.Composition
import Redex.Proofs.FirstOrder
import Redex.Proofs.Conditional
import Redex.Proofs.Spread
import Redex.Proofs.Calls
import Redex.Proofs.Records
import Redex.Proofs.DefinitionOrder
