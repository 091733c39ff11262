import Quadrature.Scalar.Basic

/-!
# Inner products

`dot ws ys` adds the products of two lists in eight interleaved running sums,
which are then added pairwise; the products after the last full block of eight
are added one by one at the end.
-/

namespace Quadrature

variable {α : Type} [Scalar α]

/-- Running sum `k` holds the products at the positions `k` modulo eight. -/
structure Lanes (α : Type) where
  (s0 s1 s2 s3 s4 s5 s6 s7 : α)

namespace Lanes

def zero : Lanes α := ⟨0.0, 0.0, 0.0, 0.0, 0.0, 0.0, 0.0, 0.0⟩

/-- Consumes full blocks of eight; fewer than eight products are left over. -/
def addBlocks (l : Lanes α) : List α → Lanes α × List α
  | p0 :: p1 :: p2 :: p3 :: p4 :: p5 :: p6 :: p7 :: rest =>
    addBlocks ⟨l.s0 + p0, l.s1 + p1, l.s2 + p2, l.s3 + p3, l.s4 + p4, l.s5 + p5, l.s6 + p6,
      l.s7 + p7⟩ rest
  | rest => (l, rest)

def total (l : Lanes α) : α :=
  0.0 + (l.s0 + l.s4) + (l.s1 + l.s5) + (l.s2 + l.s6) + (l.s3 + l.s7)

end Lanes

def dot (ws ys : List α) : α :=
  let (lanes, rest) := Lanes.zero.addBlocks (List.zipWith (· * ·) ws ys)
  rest.foldl (· + ·) lanes.total

/-- The sum in order, from zero. -/
def sum (xs : List α) : α :=
  xs.foldl (· + ·) 0.0

def mean (xs : List α) : α :=
  sum xs / xs.length

end Quadrature
