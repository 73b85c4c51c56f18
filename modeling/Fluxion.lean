import Fluxion.Main
import Fluxion.Proofs.Term.Value
import Fluxion.Expr.Node
import Fluxion.Proofs.Term.SimplifyValue
import Fluxion.Proofs.Term.RealValue
import Fluxion.Proofs.Term.CanonicalValue
import Fluxion.Proofs.Term.DerivativeValue
import Fluxion.Proofs.Cursor.Significant
import Fluxion.Proofs.Reader.Outcome
import Fluxion.Proofs.Term.HigherDerivatives
import Fluxion.Proofs.Term.RegularPoints
import Fluxion.Proofs.Term.FormalDegree
import Fluxion.Proofs.Term.Constancy
import Fluxion.Proofs.Expr.Grammar
import Fluxion.Proofs.Expr.Joining
import Fluxion.Proofs.Expr.Soundness
import Fluxion.Proofs.Expr.Completeness
import Fluxion.Proofs.Expr.NestingLimit
import Fluxion.Proofs.Expr.Value
import Fluxion.Proofs.Expr.Grammatical
import Fluxion.Proofs.Derivation.Orders
import Fluxion.Proofs.Term.SameValue
import Fluxion.Proofs.Expr.Lowering
import Fluxion.Proofs.Token.Scanning
import Fluxion.Proofs.Term.Printed
import Fluxion.Proofs.Term.AsRead
import Fluxion.Proofs.Term.RoundTrip
import Fluxion.Proofs.Term.ReadingBack
import Fluxion.Proofs.Term.NormalForm
import Fluxion.Proofs.Term.Idempotence
import Fluxion.Proofs.Term.CoefficientForm
import Fluxion.Proofs.Term.Opposite
import Fluxion.Proofs.Derivation.NormalOrders
import Fluxion.Proofs.Derivation.ZeroDivisors
import Fluxion.Proofs.Token.Spans
import Fluxion.Proofs.Expr.Keeping
import Fluxion.Proofs.Expr.Viable
import Fluxion.Proofs.Expr.Parentheses
import Fluxion.Proofs.Expr.Faults
import Fluxion.Proofs.Term.Materials
import Fluxion.Proofs.Scalar.Binary64
import Fluxion.Proofs.Derivation.WellFormed
import Fluxion.Proofs.Explanation.Condensing
import Fluxion.Proofs.Nesting.Runs
import Fluxion.Proofs.Layout.Agreement
import Fluxion.Proofs.Layout.Expressions
import Fluxion.Proofs.Derivation.Extension
import Fluxion.Proofs.Derivation.Presentation
import Fluxion.Proofs.Term.CanonicalForm
import Fluxion.Proofs.Explanation.Following
import Fluxion.Proofs.Explanation.Numbering
import Fluxion.Proofs.Expr.NestingDepth
import Fluxion.Proofs.Token.LongestMatch
import Fluxion.Proofs.Token.Pieces
import Fluxion.Proofs.Expr.Fragments
import Fluxion.Proofs.Derivation.Variables
import Fluxion.Proofs.Derivation.Checks
import Fluxion.Proofs.Derivation.Failures
import Fluxion.Proofs.Expr.ZeroDivisions
import Fluxion.Proofs.Term.RaisedRuns
import Fluxion.Proofs.Scalar.SignedNumerals
import Fluxion.Proofs.Term.ExponentStyles
import Fluxion.Proofs.Term.LeadingMinus
import Fluxion.Proofs.Term.SimplifySize
import Fluxion.Proofs.Term.Renaming
import Fluxion.Proofs.Text.Places
import Fluxion.Proofs.Derivation.Reports
import Fluxion.Proofs.Session.Settings
import Fluxion.Proofs.Session.Batches
