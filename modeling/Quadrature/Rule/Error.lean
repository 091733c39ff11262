import Quadrature.Integrand
import Quadrature.Rule.Basic

/-!
# Why a rule gives no value

A rule refuses its parameters, fails at an abscissa, or combines finite values
into a result that is not finite.
-/

namespace Quadrature

inductive ParameterError (α : Type) where
  | invalidBounds (a b : α)
  | zeroPanels
  | tooFewPanels (rule : Rule) (n minimum : Nat)
  | noRules
  | unregistered (rule : Rule)
  deriving DecidableEq

def ParameterError.message : ParameterError Float → String
  | .invalidBounds a b =>
    "invalid bounds: expected finite a < b with finite b - a, got a = " ++ plainText a
      ++ ", b = " ++ plainText b
  | .zeroPanels => "interval count must be positive"
  | .tooFewPanels rule n minimum =>
    rule.name ++ " needs at least " ++ toString minimum ++ " intervals, got " ++ toString n
  | .noRules => "no quadrature rule selected"
  | .unregistered rule => "rule " ++ rule.name ++ " is not registered"

inductive RuleError (α : Type) where
  | parameter (e : ParameterError α)
  | evaluation (x : α) (cause : EvaluationError α)
  | nonFinite (rule : Rule)
  deriving DecidableEq

def RuleError.message : RuleError Float → String
  | .parameter e => e.message
  | .evaluation x cause => "evaluation failed at x = " ++ plainText x ++ ": " ++ cause.message
  | .nonFinite rule => rule.name ++ " produced a non-finite result"

variable {α : Type} [Scalar α]

/-- Step widths and sampling ranges need a finite width of the interval. -/
def checkBounds (a b : α) : Except (ParameterError α) Unit :=
  if Scalar.isFinite a && Scalar.isFinite b && a < b && Scalar.isFinite (b - a) then .ok ()
  else .error (.invalidBounds a b)

def Rule.check (rule : Rule) (a b : α) (n : Nat) : Except (ParameterError α) Unit := do
  checkBounds a b
  if n = 0 then throw .zeroPanels
  if n < rule.minPanels then throw (.tooFewPanels rule n rule.minPanels)

def Rule.finite (rule : Rule) (value : α) : Except (RuleError α) α :=
  if Scalar.isFinite value then .ok value else .error (.nonFinite rule)

/-- The values at some abscissae, or the first failure. -/
def sample (f : Integrand α) (xs : List α) : Except (RuleError α) (List α) :=
  xs.mapM fun x => (f x).mapError (.evaluation x)

end Quadrature
