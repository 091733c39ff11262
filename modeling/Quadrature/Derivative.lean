import Quadrature.Integrand

/-!
# Derivative bounds

The greatest central difference of an integrand on a uniform grid, as an
estimate of the maximum of its second or fourth derivative. A point at which the
difference cannot be formed or is not finite does not count.
-/

namespace Quadrature

variable {α : Type} [Scalar α]

/-- The grid of the bounds on whole intervals. -/
def fineSteps : Nat := 1000

/-- The grid of single panels and of the search for singularities. -/
def coarseSteps : Nat := 100

def secondDifference (f : Integrand α) (x : α) : Option α := do
  let h : α := 1e-3
  let left ← (f (x - h)).toOption
  let middle ← (f x).toOption
  let right ← (f (x + h)).toOption
  return (right - 2.0 * middle + left) / (h * h)

def fourthDifference (f : Integrand α) (x : α) : Option α := do
  let h : α := 1e-2
  let left₂ ← (f (x - 2.0 * h)).toOption
  let left ← (f (x - h)).toOption
  let middle ← (f x).toOption
  let right ← (f (x + h)).toOption
  let right₂ ← (f (x + 2.0 * h)).toOption
  return (right₂ - 4.0 * right + 6.0 * middle - 4.0 * left + left₂) / Scalar.pow h 4

/-- The greater of a bound and the magnitude of a value, if there is a finite one. -/
def raise (bound : α) : Option α → α
  | some value =>
    if Scalar.isFinite value && bound < Scalar.abs value then Scalar.abs value else bound
  | none => bound

/-- The greatest magnitude on a grid of at least one step; zero if there is none. -/
def greatestOn (a b : α) (steps : Nat) (d : α → Option α) : α :=
  let steps := max steps 1
  let dx := (b - a) / (steps : α)
  (List.range (steps + 1)).foldl (fun bound (i : Nat) => raise bound (d (a + i * dx))) 0.0

def secondDerivativeBound (f : Integrand α) (a b : α) (steps : Nat) : α :=
  greatestOn a b steps (secondDifference f)

def fourthDerivativeBound (f : Integrand α) (a b : α) (steps : Nat) : α :=
  greatestOn a b steps (fourthDifference f)

end Quadrature
