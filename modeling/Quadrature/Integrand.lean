import Quadrature.Decimal.Shortest
import Quadrature.Scalar.Basic

/-!
# Integrands

A function to be integrated yields a finite number or says why it cannot: NaN
and the infinities are never values.
-/

namespace Quadrature

inductive EvaluationError (α : Type) where
  | domain (function : String) (argument : α)
  | divisionByZero
  | overflow (operation : String)
  | notANumber (operation : String)
  deriving DecidableEq

abbrev Integrand (α : Type) := α → Except (EvaluationError α) α

variable {α : Type} [Scalar α]

/-- The value of an operation when it is finite. -/
def checked (operation : String) (value : α) : Except (EvaluationError α) α :=
  if Scalar.isNaN value then .error (.notANumber operation)
  else if !Scalar.isFinite value then .error (.overflow operation)
  else .ok value

/-- An integrand given by a total function. -/
def Integrand.ofFunction (f : α → α) : Integrand α :=
  fun x => checked "function" (f x)

def EvaluationError.message : EvaluationError Float → String
  | .domain function argument =>
    function ++ "(" ++ plainText argument ++ ") is outside the domain of " ++ function
  | .divisionByZero => "division by zero"
  | .overflow operation => "numerical overflow in " ++ operation
  | .notANumber operation => operation ++ " produced a value that is not a number"

end Quadrature
