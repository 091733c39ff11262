import Mathlib
import Quadrature.Proofs.Scalar.Exact
import Quadrature.Rule.Fixed

/-!
# Exact grids

Without rounding the nodes of a grid are equidistant, its last node included. Some
neighbouring panels make a grid of their own (`part`) with the same nodes; halving the
panels keeps the nodes and puts the midpoints between them.
-/

namespace Quadrature

namespace Grid

variable {g : Grid ℚ} {i j k : ℕ}

theorem step_mul_panels (hg : g.panels ≠ 0) : g.panels * g.step = g.b - g.a := by
  have hcast : (g.panels : ℚ) ≠ 0 := Nat.cast_ne_zero.2 hg
  exact mul_div_cancel₀ _ hcast

theorem node_exact (hg : g.panels ≠ 0) (i : ℕ) : g.node i = g.a + i * g.step := by
  rw [node]
  split
  · next h => rw [h, step_mul_panels hg, add_sub_cancel]
  · rfl

theorem node_zero (hg : g.panels ≠ 0) : g.node 0 = g.a := by
  simp [node_exact hg]

theorem node_panels : g.node g.panels = g.b :=
  if_pos rfl

theorem midpoint_exact (i : ℕ) : g.midpoint i = g.a + (i + 1 / 2) * g.step := by
  rw [midpoint]
  norm_num

theorem splitPoint_exact (hg : g.panels ≠ 0) :
    splitPoint g.a g.b g.panels = g.node (g.panels - 1) := by
  rw [splitPoint, node_exact hg, mul_div_assoc]
  rfl

theorem splitPoint_add_step (hg : g.panels ≠ 0) :
    splitPoint g.a g.b g.panels + g.step = g.b := by
  rw [splitPoint_exact hg, node_exact hg, Nat.cast_pred (Nat.pos_of_ne_zero hg)]
  linear_combination step_mul_panels hg

/-- The panels from `i` on and before `j` as a grid. -/
def part (g : Grid ℚ) (i j : ℕ) : Grid ℚ :=
  ⟨g.node i, g.node j, j - i⟩

theorem step_part (hg : g.panels ≠ 0) (hij : i < j) : (g.part i j).step = g.step := by
  have hcast : ((j - i : ℕ) : ℚ) ≠ 0 := Nat.cast_ne_zero.2 (by omega)
  have hwidth : g.node j - g.node i = ((j - i : ℕ) : ℚ) * g.step := by
    rw [node_exact hg, node_exact hg, Nat.cast_sub hij.le]
    ring
  show (g.node j - g.node i) / ((j - i : ℕ) : ℚ) = g.step
  rw [hwidth, mul_div_cancel_left₀ _ hcast]

theorem node_part (hg : g.panels ≠ 0) (hij : i < j) (k : ℕ) :
    (g.part i j).node k = g.node (i + k) := by
  have hpart : (g.part i j).panels ≠ 0 := Nat.sub_ne_zero_of_lt hij
  rw [node_exact hpart, step_part hg hij, node_exact hg, part, node_exact hg, Nat.cast_add]
  ring

theorem part_all (hg : g.panels ≠ 0) : g.part 0 g.panels = g := by
  rw [part, node_zero hg, node_panels]
  rfl

/-! ## Halved panels -/

variable {a b : ℚ} {n : ℕ}

theorem step_two_mul : (⟨a, b, 2 * n⟩ : Grid ℚ).step = (⟨a, b, n⟩ : Grid ℚ).step / 2 := by
  show (b - a) / ((2 * n : ℕ) : ℚ) = (b - a) / n / 2
  rw [Nat.cast_mul, Nat.cast_two, div_div, mul_comm]

theorem node_two_mul (hn : n ≠ 0) (i : ℕ) :
    (⟨a, b, 2 * n⟩ : Grid ℚ).node (2 * i) = (⟨a, b, n⟩ : Grid ℚ).node i := by
  rw [node_exact (by simpa using hn), node_exact hn, step_two_mul]
  push_cast
  ring

theorem node_two_mul_add_one (hn : n ≠ 0) (i : ℕ) :
    (⟨a, b, 2 * n⟩ : Grid ℚ).node (2 * i + 1) = (⟨a, b, n⟩ : Grid ℚ).midpoint i := by
  rw [node_exact (by simpa using hn), midpoint_exact, step_two_mul]
  push_cast
  ring

end Grid

end Quadrature
