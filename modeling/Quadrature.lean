import Quadrature.Scalar.Dot
import Quadrature.Decimal.Rounding
import Quadrature.Expression.Formula
import Quadrature.Scalar.Binary64
import Quadrature.Decimal.Numeral
import Quadrature.Expression.Lexer
import Quadrature.Analysis.Convergence
import Quadrature.Analysis.Result
import Quadrature.Json.Document
import Quadrature.Json.Lexer
import Quadrature.Json.Parser
import Quadrature.Json.Printer
import Quadrature.Json.Record
import Quadrature.Analysis.Record
import Quadrature.Request
import Quadrature.Settings
import Quadrature.Report.Date
import Quadrature.Report.Identifier
import Quadrature.Report.Instant
import Quadrature.Catalogue.Basic
import Quadrature.Configuration
import Quadrature.Engine.Basic
import Quadrature.Report.Record
import Quadrature.Report.Text
import Quadrature.CommandLine.Arguments
import Quadrature.CommandLine.Call
import Quadrature.Main
import Quadrature.Proofs.Expression.Grammar
import Quadrature.Proofs.Expression.Viability
import Quadrature.Proofs.Scalar.Packing
import Quadrature.Proofs.Scalar.Value
import Quadrature.Proofs.Decimal.ReadBack
import Quadrature.Proofs.Scalar.Rounding
import Quadrature.Proofs.Scalar.Arithmetic
import Quadrature.Proofs.Scalar.Overflow
import Quadrature.Proofs.Scalar.Cancellation
import Quadrature.Proofs.Decimal.Layout
import Quadrature.Proofs.Expression.Printing
import Quadrature.Proofs.Text
import Quadrature.Proofs.Expression.RoundTrip
import Quadrature.Proofs.Random.Uniform
import Quadrature.Proofs.Rule.Error
import Quadrature.Proofs.Scalar.Exact
import Quadrature.Proofs.Polynomial
import Quadrature.Proofs.Derivative
import Quadrature.Proofs.Derivative.Constant
import Quadrature.Proofs.Rule.Grid
import Quadrature.Proofs.Rule.Pieces
import Quadrature.Proofs.Rule.Panels
import Quadrature.Proofs.Rule.Halving
import Quadrature.Proofs.Rule.Accuracy
import Quadrature.Proofs.Rule.ErrorBound
import Quadrature.Proofs.Rule.ThreeEighths
import Quadrature.Proofs.Rule.Sampler
import Quadrature.Proofs.Rule.History
import Quadrature.Proofs.Rule.Method
import Quadrature.Proofs.Rule.Abscissae
import Quadrature.Proofs.Rule.Numbers
import Quadrature.Proofs.Analysis.Convergence
import Quadrature.Proofs.Analysis.Sweep
import Quadrature.Proofs.Engine.Answer
import Quadrature.Proofs.Engine.OneDraw
import Quadrature.Proofs.Engine.History
import Quadrature.Proofs.Engine.Independence
import Quadrature.Proofs.Expression.Evaluation
import Quadrature.Proofs.Engine.States
import Quadrature.Proofs.Engine.Acceptance
import Quadrature.Proofs.Catalogue
import Quadrature.Proofs.Engine.Numbers
import Quadrature.Proofs.Expression.Juxtaposition
import Quadrature.Proofs.Rule.Obliviousness
import Quadrature.Proofs.Rule.Outcome
import Quadrature.Proofs.Catalogue.Exact
import Quadrature.Proofs.Catalogue.Insertion
import Quadrature.Proofs.Configuration.History
import Quadrature.Proofs.Report.Identifier
import Quadrature.Proofs.Json.String
import Quadrature.Proofs.Json.Number
import Quadrature.Proofs.Json.Document
import Quadrature.Proofs.Json.Record
import Quadrature.Proofs.Json.Value
import Quadrature.Proofs.Analysis.Record
import Quadrature.Proofs.Request
import Quadrature.Proofs.Report.Date
import Quadrature.Proofs.Report.Instant
import Quadrature.Proofs.Report.Record
import Quadrature.Proofs.Decimal.RoundedText
import Quadrature.Proofs.Expression.Parentheses
import Quadrature.Proofs.Engine.Failure
import Quadrature.Proofs.Rule.Spelling
