import Quadrature.Scalar.Basic

/-!
# Grids

An interval cut into panels of equal width, and the weights that the composite rules
give to its nodes. One node more than panels is asked for: where this number does not
fit a machine word there are as few nodes and weights as it wraps to, which is none
(the trapezoidal rule has no first weight to halve then, and stops the program).
-/

namespace Quadrature

variable {α : Type} [Scalar α]

structure Grid (α : Type) where
  (a b : α)
  panels : Nat

namespace Grid

def step (g : Grid α) : α :=
  (g.b - g.a) / g.panels

/-- The last node is the end of the interval itself. -/
def node (g : Grid α) (i : Nat) : α :=
  if i = g.panels then g.b else g.a + i * g.step

def midpoint (g : Grid α) (i : Nat) : α :=
  g.a + (i + 0.5) * g.step

/-- The nodes `0` to `k`. -/
def nodesTo (g : Grid α) (k : Nat) : List α :=
  (List.range (Scalar.count α (k + 1))).map g.node

def nodes (g : Grid α) : List α :=
  g.nodesTo g.panels

def midpoints (g : Grid α) : List α :=
  (List.range g.panels).map g.midpoint

end Grid

/-! ## Weights -/

/-- `½, 1, …, 1, ½`. -/
def trapezoidalWeights (n : Nat) : List α :=
  (List.range (Scalar.count α (n + 1))).map fun i => if i = 0 ∨ i = n then 0.5 else 1.0

def midpointWeights (n : Nat) : List α :=
  List.replicate n 1.0

/-- `1, 4, 2, 4, …, 2, 4, 1` for an even number of panels. -/
def simpsonWeights (n : Nat) : List α :=
  (List.range (Scalar.count α (n + 1))).map fun i =>
    if i = 0 ∨ i = n then 1.0 else if i % 2 = 1 then 4.0 else 2.0

/-- `1, 3, 3, 2, 3, 3, …, 2, 3, 3, 1` for a multiple of three panels. -/
def threeEighthsWeights (n : Nat) : List α :=
  (List.range (Scalar.count α (n + 1))).map fun i =>
    if i = 0 ∨ i = n then 1.0 else if i % 3 = 0 then 2.0 else 3.0

end Quadrature
