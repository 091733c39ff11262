/-!
# Scalars

The numbers a quadrature formula computes with. Every formula is written once
over `Scalar` and runs in binary64 (`Scalar/Binary64`) or without rounding
(`Proofs/Scalar/Exact`), so a statement over the rationals speaks of the formula
that runs. Evaluation is written over `Elementary`, so what is proved of it holds
for every mathematical library with the properties assumed there.
-/

namespace Quadrature

class Scalar (α : Type) extends Add α, Sub α, Mul α, Div α, Neg α, NatCast α, OfScientific α,
    LT α, LE α, BEq α where
  decidableLT : DecidableLT α
  decidableLE : DecidableLE α
  abs : α → α
  /-- The nearest integer; halves go away from zero. -/
  round : α → α
  isNaN : α → Bool
  isFinite : α → Bool
  /-- The exact value of a finite scalar. -/
  value : α → Rat
  /-- A number of nodes as it is counted beside these scalars: a machine word wraps. -/
  count : Nat → Nat

/-- The functions an expression may name. -/
class Elementary (α : Type) where
  (sin cos tan asin acos atan sinh cosh tanh sqrt exp ln log10 : α → α)
  power : α → α → α

namespace Scalar

variable {α : Type} [Scalar α]

instance : DecidableLT α := decidableLT
instance : DecidableLE α := decidableLE

/-- The product of `m` and `x ^ k` by repeated squaring, lowest bit of `k`
first. -/
def mulPow (m x : α) (k : Nat) : α :=
  let m := if k % 2 = 1 then m * x else m
  if h : k / 2 = 0 then m else mulPow m (x * x) (k / 2)
termination_by k

/-- `x ^ k` for an integer exponent; a negative one inverts the positive
power. -/
def pow (x : α) (k : Int) : α :=
  let p := mulPow 1.0 x k.natAbs
  if k < 0 then 1.0 / p else p

end Scalar

end Quadrature
