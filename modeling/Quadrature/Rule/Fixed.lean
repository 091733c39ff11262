import Quadrature.Derivative
import Quadrature.Rule.Error
import Quadrature.Rule.Grid
import Quadrature.Scalar.Dot

/-!
# Rules on fixed abscissae

A composite rule is a weighted sum over one grid and, where the number of panels
does not fit, a second one over the panels left at the right end, which are taken
by the trapezoidal rule. The error bounds are those of the composite formulas,
with derivatives estimated on a grid.
-/

namespace Quadrature

variable {α : Type} [Scalar α]

/-- A weighted sum of the values at some abscissae, times a factor. -/
structure Piece (α : Type) where
  abscissae : List α
  weights : List α
  factor : α

namespace Piece

def value (p : Piece α) (ys : List α) : α :=
  p.factor * dot p.weights ys

def integrate (p : Piece α) (f : Integrand α) : Except (RuleError α) α :=
  (sample f p.abscissae).map p.value

def trapezoidal (g : Grid α) : Piece α :=
  ⟨g.nodes, trapezoidalWeights g.panels, g.step⟩

def midpoint (g : Grid α) : Piece α :=
  ⟨g.midpoints, midpointWeights g.panels, g.step⟩

def simpson (g : Grid α) : Piece α :=
  ⟨g.nodes, simpsonWeights g.panels, g.step / 3.0⟩

/-- Over the first `m` panels. -/
def threeEighths (g : Grid α) (m : Nat) : Piece α :=
  ⟨g.nodesTo m, threeEighthsWeights m, 3.0 * g.step / 8.0⟩

end Piece

/-- What a rule adds up: the pieces in the order of their evaluation. -/
structure Plan (α : Type) where
  head : Piece α
  tail : Option (Piece α)

namespace Plan

def abscissae (p : Plan α) : List α :=
  p.head.abscissae ++ p.tail.elim [] Piece.abscissae

def integrate (p : Plan α) (f : Integrand α) : Except (RuleError α) α := do
  let head ← p.head.integrate f
  match p.tail with
  | none => return head
  | some tail => return head + (← tail.integrate f)

end Plan

/-- The right end of the first `n - 1` of `n` panels. -/
def splitPoint (a b : α) (n : Nat) : α :=
  a + ((n - 1 : Nat) : α) * (b - a) / (n : α)

namespace FixedRule

def plan : FixedRule → α → α → Nat → Plan α
  | trapezoidal, a, b, n => ⟨.trapezoidal ⟨a, b, n⟩, none⟩
  | midpoint, a, b, n => ⟨.midpoint ⟨a, b, n⟩, none⟩
  | simpsonOneThird, a, b, n =>
    if n % 2 = 0 then ⟨.simpson ⟨a, b, n⟩, none⟩
    else if n = 1 then ⟨.trapezoidal ⟨a, b, 1⟩, none⟩
    else
      let split := splitPoint a b n
      ⟨.simpson ⟨a, split, n - 1⟩, some (.trapezoidal ⟨split, b, 1⟩)⟩
  | simpsonThreeEighths, a, b, n =>
    let g : Grid α := ⟨a, b, n⟩
    let m := n - n % 3
    ⟨.threeEighths g m, if m < n then some (.trapezoidal ⟨g.node m, b, n - m⟩) else none⟩

def integrate (r : FixedRule) (f : Integrand α) (a b : α) (n : Nat) : Except (RuleError α) α := do
  (Rule.fixed r).check a b n |>.mapError .parameter
  (Rule.fixed r).finite (← (r.plan a b n).integrate f)

end FixedRule

/-! ## Error bounds -/

/-- `|width ^ p * derivative / (c * n ^ q)|`. -/
def boundTerm (width derivative c : α) (p q n : Nat) : α :=
  Scalar.abs (Scalar.pow width p * derivative / (c * Scalar.pow (n : α) q))

def trapezoidalBound (f : Integrand α) (a b : α) (n steps : Nat) : α :=
  boundTerm (b - a) (secondDerivativeBound f a b steps) 12.0 3 2 n

def midpointBound (f : Integrand α) (a b : α) (n : Nat) : α :=
  boundTerm (b - a) (secondDerivativeBound f a b fineSteps) 24.0 3 2 n

def simpsonBound (f : Integrand α) (a b : α) (n : Nat) : α :=
  boundTerm (b - a) (fourthDerivativeBound f a b fineSteps) 180.0 5 4 n

namespace FixedRule

/-- The three-eighths rule has no bound. -/
def bound? : FixedRule → Integrand α → α → α → Nat → Option α
  | trapezoidal, f, a, b, n => some (trapezoidalBound f a b n fineSteps)
  | midpoint, f, a, b, n => some (midpointBound f a b n)
  | simpsonOneThird, f, a, b, n => some <|
    if n % 2 = 0 then simpsonBound f a b n
    else if n = 1 then trapezoidalBound f a b 1 coarseSteps
    else
      let split := splitPoint a b n
      simpsonBound f a split (n - 1) + trapezoidalBound f split b 1 coarseSteps
  | simpsonThreeEighths, _, _, _, _ => none

def errorBound (r : FixedRule) (f : Integrand α) (a b : α) (n : Nat) :
    Except (RuleError α) (Option α) := do
  (Rule.fixed r).check a b n |>.mapError .parameter
  return r.bound? f a b n

end FixedRule

end Quadrature
