import Quadrature.Analysis.Convergence
import Quadrature.Analysis.Result
import Quadrature.Report.Identifier
import Quadrature.Report.Instant

/-!
# Reports

The outcome of a calculation.
-/

namespace Quadrature

/-- By what one report is told from another. -/
structure Stamp where
  id : Identifier
  createdAt : Instant
  deriving DecidableEq

structure Report where
  stamp : Stamp
  label : String
  normalized : String
  description : Option String
  (a b : Float)
  n : Nat
  /-- The integral, where it is known. -/
  exact : Option Float
  results : List RuleResult
  convergence : List ConvergencePoint
  /-- The points of the Monte Carlo draw. -/
  samples : List Point
  /-- The places of the numbers in its text. -/
  digits : Nat

/-- What a report says of a rule. -/
def Report.result? (r : Report) (rule : Rule) : Option RuleResult :=
  r.results.find? (·.rule = rule)

end Quadrature
