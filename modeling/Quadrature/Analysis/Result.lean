import Quadrature.Rule.Basic
import Quadrature.Scalar.Binary64

/-!
# Results

What a report says of one rule: a value with its errors, or the message of its
failure.
-/

namespace Quadrature

structure RuleResult where
  rule : Rule
  value : Option Float
  errorBound : Option Float
  absoluteError : Option Float
  /-- In percent. -/
  relativeError : Option Float
  failure : Option String
  deriving DecidableEq

namespace RuleResult

/-- A value beside the exact one, if that is known. The relative error needs an
exact value other than zero. -/
def ofValue (rule : Rule) (value : Float) (errorBound exact : Option Float) : RuleResult where
  rule
  value := some value
  errorBound
  absoluteError := exact.map fun e => (value - e).abs
  relativeError := (exact.filter (· != 0.0)).map fun e => (value - e).abs / e.abs * 100.0
  failure := none

def ofFailure (rule : Rule) (message : String) : RuleResult :=
  ⟨rule, none, none, none, none, some message⟩

def isFailure (r : RuleResult) : Bool :=
  r.failure.isSome

end RuleResult

end Quadrature
