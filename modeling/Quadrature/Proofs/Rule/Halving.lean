import Mathlib
import Quadrature.Proofs.Rule.Panels

/-!
# Halved panels

Twice as many panels have the nodes of the grid and its midpoints as their nodes, so the
trapezoidal and the Simpson value on them are means of the trapezoidal and the midpoint
value on the grid. Main statement: `integrate_two_mul`.
-/

open Finset

namespace Quadrature

section Sums

variable {h : ℚ} {y : ℕ → ℚ} {n : ℕ}

theorem sum_range_two_mul (u : ℕ → ℚ) (n : ℕ) :
    ∑ i ∈ range (2 * n), u i = ∑ i ∈ range n, (u (2 * i) + u (2 * i + 1)) := by
  induction n with
  | zero => rfl
  | succ n ih => rw [Nat.mul_succ, sum_range_succ, sum_range_succ, ih, sum_range_succ, add_assoc]

theorem sum_trapezoidPanel_half :
    ∑ i ∈ range (2 * n), trapezoidPanel (h / 2) y i =
      (∑ i ∈ range n, trapezoidPanel h (fun i => y (2 * i)) i +
        ∑ i ∈ range n, h * y (2 * i + 1)) / 2 := by
  rw [sum_range_two_mul, ← sum_add_distrib, sum_div]
  refine sum_congr rfl fun i _ => ?_
  simp only [trapezoidPanel, Nat.mul_succ]
  ring

theorem sum_simpsonPair_half :
    ∑ i ∈ range n, simpsonPair (h / 2) y (2 * i) =
      (∑ i ∈ range n, trapezoidPanel h (fun i => y (2 * i)) i +
        2 * ∑ i ∈ range n, h * y (2 * i + 1)) / 3 := by
  rw [mul_sum, ← sum_add_distrib, sum_div]
  refine sum_congr rfl fun i _ => ?_
  simp only [simpsonPair, trapezoidPanel, Nat.mul_succ]
  ring

end Sums

namespace FixedRule

variable {f : Integrand ℚ} {y : ℕ → ℚ} {a b : ℚ} {n : ℕ}

/-- The values on `n` and on `2 * n` panels of an integrand with values `y` at the nodes of
the latter: the trapezoidal value `t'` on halved panels is the mean of the trapezoidal value
`t` and the midpoint value `m`, and the Simpson value `s'` is their mean with double weight on
`m`, which is also the extrapolation from `t` and `t'`. -/
theorem integrate_two_mul (hab : a < b) (hn : 1 ≤ n)
    (hf : ∀ i ≤ 2 * n, f (a + i * ((b - a) / (2 * n))) = .ok (y i)) :
    ∃ t m t' s', trapezoidal.integrate f a b n = .ok t ∧ midpoint.integrate f a b n = .ok m ∧
      trapezoidal.integrate f a b (2 * n) = .ok t' ∧
      simpsonOneThird.integrate f a b (2 * n) = .ok s' ∧
      t' = (t + m) / 2 ∧ s' = (t + 2 * m) / 3 ∧ s' = (4 * t' - t) / 3 := by
  have hne : n ≠ 0 := by omega
  have hstep : (⟨a, b, 2 * n⟩ : Grid ℚ).step = (⟨a, b, n⟩ : Grid ℚ).step / 2 := Grid.step_two_mul
  have hy : ∀ i ≤ 2 * n, f ((⟨a, b, 2 * n⟩ : Grid ℚ).node i) = .ok (y i) := by
    intro i hi
    rw [Grid.node_exact (by simpa using hne), Grid.step, Nat.cast_mul, Nat.cast_two]
    exact hf i hi
  have hnodes : ∀ i ≤ n, f ((⟨a, b, n⟩ : Grid ℚ).node i) = .ok (y (2 * i)) := by
    intro i hi
    rw [← Grid.node_two_mul hne]
    exact hy (2 * i) (by omega)
  have hmidpoints : ∀ i < n, f ((⟨a, b, n⟩ : Grid ℚ).midpoint i) = .ok (y (2 * i + 1)) := by
    intro i hi
    rw [← Grid.node_two_mul_add_one hne]
    exact hy (2 * i + 1) (by omega)
  have ht := integrate_trapezoidal (g := ⟨a, b, n⟩) hab hnodes hn
  have hm := integrate_midpoint (g := ⟨a, b, n⟩) hab hn hmidpoints
  have ht' := integrate_trapezoidal (g := ⟨a, b, 2 * n⟩) hab hy (by show 1 ≤ 2 * n; omega)
  have hs' := integrate_simpson (g := ⟨a, b, 2 * n⟩) hab hy (by show 1 ≤ 2 * n; omega)
  have hpairs : 2 * n / 2 = n := by omega
  dsimp only at ht hm ht' hs'
  rw [hstep, sum_trapezoidPanel_half] at ht'
  rw [hstep, hpairs, Ico_self, sum_empty, add_zero, sum_simpsonPair_half] at hs'
  refine ⟨_, _, _, _, ht, hm, ht', hs', rfl, rfl, ?_⟩
  ring

/-- Three panels and six: the values on six follow from those on three. -/
theorem integrate_two_mul_square :
    let f := Integrand.ofFunction fun x : ℚ => x * x
    trapezoidal.integrate f 0 3 3 = .ok (19 / 2) ∧ midpoint.integrate f 0 3 3 = .ok (35 / 4) ∧
      trapezoidal.integrate f 0 3 6 = .ok (73 / 8) ∧ simpsonOneThird.integrate f 0 3 6 = .ok 9 := by
  intro f
  have htrapezoidal : trapezoidal.integrate f 0 3 3 = .ok (19 / 2) := by decide +kernel
  have hmidpoint : midpoint.integrate f 0 3 3 = .ok (35 / 4) := by decide +kernel
  obtain ⟨t, m, t', s', ht, hm, ht', hs', rfl, rfl, -⟩ :=
    integrate_two_mul (f := f) (y := fun i => (0 + i * ((3 - 0) / (2 * (3 : ℕ)))) ^ 2) (a := 0)
      (b := 3) (n := 3) (by norm_num) (by norm_num) fun i _ => congrArg Except.ok (by ring)
  obtain rfl : t = 19 / 2 := Except.ok.inj (ht.symm.trans htrapezoidal)
  obtain rfl : m = 35 / 4 := Except.ok.inj (hm.symm.trans hmidpoint)
  exact ⟨ht, hm, ht'.trans (congrArg _ (by norm_num)), hs'.trans (congrArg _ (by norm_num))⟩

end FixedRule

end Quadrature
