import Mathlib
import Quadrature.Proofs.Rule.Grid

/-!
# Pieces panel by panel

Without rounding the weighted sum of a piece is a sum over the panels of its grid. Weights
that repeat come apart into blocks of neighbouring panels (`sum_weights`), and what a rule
adds up in one block is a formula for these panels.
-/

open Finset

namespace Quadrature

/-! ## Weighted sums in blocks

The weights `p` of a composite rule repeat in blocks of `d + 1` panels. Where two blocks meet
the weight is `2 * e`, which is `e` for either of them.
-/

section Weights

/-- The sum over the block that begins at the node `i`. -/
def blockSum (e : ℚ) (p y : ℕ → ℚ) (d i : ℕ) : ℚ :=
  e * y i + ∑ r ∈ range d, p (i + 1 + r) * y (i + 1 + r) + e * y (i + d + 1)

variable {e : ℚ} {p y : ℕ → ℚ} {d k n : ℕ}

theorem sum_ends (hn : n ≠ 0) (hfirst : p 0 = 2 * e) (hlast : p n = 2 * e) :
    ∑ i ∈ range (n + 1), (if i = 0 ∨ i = n then e else p i) * y i =
      ∑ i ∈ range (n + 1), p i * y i - e * (y 0 + y n) := by
  have hterm (i : ℕ) : (if i = 0 ∨ i = n then e else p i) * y i =
      p i * y i - ((if i = 0 then e * y 0 else 0) + if i = n then e * y n else 0) := by
    by_cases h0 : i = 0
    · subst h0
      rw [if_pos (.inl rfl), if_pos rfl, if_neg hn.symm, hfirst]
      ring
    · by_cases hi : i = n
      · subst hi
        rw [if_pos (.inr rfl), if_neg h0, if_pos rfl, hlast]
        ring
      · rw [if_neg (by simp [h0, hi]), if_neg h0, if_neg hi]
        ring
  rw [sum_congr rfl fun i _ => hterm i, sum_sub_distrib, sum_add_distrib]
  simp [mul_add]

/-- The sum over `k` blocks, in which an end of the whole still counts for two blocks. -/
theorem sum_blocks (hp : ∀ j, p ((d + 1) * j) = 2 * e) :
    ∑ i ∈ range ((d + 1) * k + 1), p i * y i =
      e * (y 0 + y ((d + 1) * k)) + ∑ j ∈ range k, blockSum e p y d ((d + 1) * j) := by
  induction k with
  | zero =>
    have h0 := hp 0
    rw [mul_zero] at h0
    simp [h0]
    ring
  | succ k ih =>
    -- the last node so far becomes a place where two blocks meet
    have hnodes : (d + 1) * (k + 1) + 1 = (d + 1) * k + 1 + d + 1 := by ring
    have hend : (d + 1) * k + 1 + d = (d + 1) * (k + 1) := by ring
    have hend' : (d + 1) * k + d + 1 = (d + 1) * (k + 1) := by ring
    rw [hnodes, sum_range_succ, sum_range_add, ih, sum_range_succ _ k, blockSum, hend, hend', hp]
    ring

/-- The ends of the whole belong to one block each. -/
theorem sum_weights (hk : k ≠ 0) (hp : ∀ j, p ((d + 1) * j) = 2 * e) :
    ∑ i ∈ range ((d + 1) * k + 1), (if i = 0 ∨ i = (d + 1) * k then e else p i) * y i =
      ∑ j ∈ range k, blockSum e p y d ((d + 1) * j) := by
  rw [sum_ends (Nat.mul_ne_zero d.succ_ne_zero hk) (hp 0) (hp k), sum_blocks hp]
  ring

end Weights

/-! ## Formulas of neighbouring panels

Each formula is for panels of width `h`, from the node `i` on, where `y` are the values at
the nodes.
-/

/-- One panel under a chord. -/
def trapezoidPanel (h : ℚ) (y : ℕ → ℚ) (i : ℕ) : ℚ :=
  h / 2 * (y i + y (i + 1))

/-- Two panels under a parabola. -/
def simpsonPair (h : ℚ) (y : ℕ → ℚ) (i : ℕ) : ℚ :=
  h / 3 * (y i + 4 * y (i + 1) + y (i + 2))

/-- Three panels under a cubic. -/
def threeEighthsTriple (h : ℚ) (y : ℕ → ℚ) (i : ℕ) : ℚ :=
  3 * h / 8 * (y i + 3 * y (i + 1) + 3 * y (i + 2) + y (i + 3))

namespace Piece

variable {f : Integrand ℚ} {g : Grid ℚ} {x w y : ℕ → ℚ} {c : ℚ} {i j k : ℕ}

theorem integrate_range (hf : ∀ i < k, f (x i) = .ok (y i)) :
    (⟨(List.range k).map x, (List.range k).map w, c⟩ : Piece ℚ).integrate f =
      .ok (c * ∑ i ∈ range k, w i * y i) := by
  rw [integrate, sample_range hf]
  exact congrArg (fun s => Except.ok (c * s)) (dot_range w y k)

theorem trapezoidal_exact (g : Grid ℚ) : trapezoidal g =
    ⟨(List.range (g.panels + 1)).map g.node, (List.range (g.panels + 1)).map fun i =>
      if i = 0 ∨ i = g.panels then 1 / 2 else 1, g.step⟩ := by
  norm_num [trapezoidal, Grid.nodes, Grid.nodesTo, trapezoidalWeights]

theorem midpoint_exact (g : Grid ℚ) : midpoint g =
    ⟨(List.range g.panels).map g.midpoint, (List.range g.panels).map fun _ => 1, g.step⟩ := by
  norm_num [midpoint, Grid.midpoints, midpointWeights]

theorem simpson_exact (g : Grid ℚ) : simpson g =
    ⟨(List.range (g.panels + 1)).map g.node, (List.range (g.panels + 1)).map fun i =>
      if i = 0 ∨ i = g.panels then 1 else if i % 2 = 1 then 4 else 2, g.step / 3⟩ := by
  norm_num [simpson, Grid.nodes, Grid.nodesTo, simpsonWeights]

theorem threeEighths_exact (g : Grid ℚ) (m : ℕ) : threeEighths g m =
    ⟨(List.range (m + 1)).map g.node, (List.range (m + 1)).map fun i =>
      if i = 0 ∨ i = m then 1 else if i % 3 = 0 then 2 else 3, 3 * g.step / 8⟩ := by
  norm_num [threeEighths, Grid.nodesTo, threeEighthsWeights]

theorem integrate_trapezoidal (hg : g.panels ≠ 0)
    (hf : ∀ i ≤ g.panels, f (g.node i) = .ok (y i)) :
    (trapezoidal g).integrate f = .ok (∑ i ∈ range g.panels, trapezoidPanel g.step y i) := by
  have hsum := sum_weights (e := 1 / 2) (p := fun _ => 1) (y := y) (d := 0) hg (by norm_num)
  simp only [zero_add, one_mul] at hsum
  rw [trapezoidal_exact, integrate_range fun i hi => hf i (Nat.le_of_lt_succ hi), hsum, mul_sum]
  congr 2 with i
  rw [blockSum, range_zero, sum_empty, trapezoidPanel]
  ring

theorem integrate_midpoint (hf : ∀ i < g.panels, f (g.midpoint i) = .ok (y i)) :
    (midpoint g).integrate f = .ok (∑ i ∈ range g.panels, g.step * y i) := by
  rw [midpoint_exact, integrate_range hf, mul_sum]
  simp only [one_mul]

theorem integrate_simpson (hk : k ≠ 0) (hpanels : g.panels = 2 * k)
    (hf : ∀ i ≤ g.panels, f (g.node i) = .ok (y i)) :
    (simpson g).integrate f = .ok (∑ j ∈ range k, simpsonPair g.step y (2 * j)) := by
  have hsum := sum_weights (e := 1) (p := fun i => if i % 2 = 1 then 4 else 2) (y := y) (d := 1)
    hk (by intro j; rw [if_neg (by omega)]; norm_num)
  rw [simpson_exact, integrate_range fun i hi => hf i (Nat.le_of_lt_succ hi), hpanels, hsum,
    mul_sum]
  congr 2 with j
  have hodd : (2 * j + 1) % 2 = 1 := by omega
  rw [blockSum, sum_range_one, add_zero, if_pos hodd, simpsonPair]
  ring_nf

theorem integrate_threeEighths (hk : k ≠ 0) (hf : ∀ i ≤ 3 * k, f (g.node i) = .ok (y i)) :
    (threeEighths g (3 * k)).integrate f =
      .ok (∑ j ∈ range k, threeEighthsTriple g.step y (3 * j)) := by
  have hsum := sum_weights (e := 1) (p := fun i => if i % 3 = 0 then 2 else 3) (y := y) (d := 2)
    hk (by intro j; rw [if_pos (by omega)]; norm_num)
  rw [threeEighths_exact, integrate_range fun i hi => hf i (Nat.le_of_lt_succ hi), hsum, mul_sum]
  congr 2 with j
  have hsecond : (3 * j + 1) % 3 ≠ 0 := by omega
  have hthird : (3 * j + 1 + 1) % 3 ≠ 0 := by omega
  rw [blockSum, sum_range_succ, sum_range_one, add_zero, if_neg hsecond, if_neg hthird,
    threeEighthsTriple]
  ring_nf

/-! ### Parts of a grid -/

theorem integrate_trapezoidal_part (hg : g.panels ≠ 0) (hij : i < j)
    (hf : ∀ k ≤ j, f (g.node k) = .ok (y k)) :
    (trapezoidal (g.part i j)).integrate f = .ok (∑ k ∈ Ico i j, trapezoidPanel g.step y k) := by
  have hvalues : ∀ k ≤ (g.part i j).panels, f ((g.part i j).node k) = .ok (y (i + k)) := by
    intro k hk
    have hk' : k ≤ j - i := hk
    rw [Grid.node_part hg hij]
    exact hf (i + k) (by omega)
  rw [integrate_trapezoidal (Nat.sub_ne_zero_of_lt hij) hvalues, Grid.step_part hg hij,
    sum_Ico_eq_sum_range]
  rfl

theorem integrate_simpson_part (hg : g.panels ≠ 0) (hk : k ≠ 0)
    (hf : ∀ i ≤ 2 * k, f (g.node i) = .ok (y i)) :
    (simpson (g.part 0 (2 * k))).integrate f =
      .ok (∑ j ∈ range k, simpsonPair g.step y (2 * j)) := by
  have hvalues : ∀ i ≤ (g.part 0 (2 * k)).panels, f ((g.part 0 (2 * k)).node i) = .ok (y i) := by
    intro i hi
    rw [Grid.node_part hg (by omega), zero_add]
    exact hf i hi
  rw [integrate_simpson hk rfl hvalues, Grid.step_part hg (by omega)]

end Piece

end Quadrature
