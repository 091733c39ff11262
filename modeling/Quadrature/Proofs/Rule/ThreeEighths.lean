import Mathlib
import Quadrature.Proofs.Rule.Accuracy

/-!
# The three-eighths rule on cubics

Three panels under a cubic have the integral of the cubic. So for a cubic the three-eighths
rule errs only on the one or two panels that are left to chords, and there it errs as the
trapezoidal rule does. Main statement: `threeEighths_error`.
-/

open Finset Polynomial

namespace Quadrature

variable {p : ℚ[X]}

section Sums

variable (hp : p.natDegree ≤ 3) (a h : ℚ)

include hp

/-- Three panels are one panel of three times the width. -/
theorem threeEighthsTriple_polynomial (j : ℕ) :
    threeEighthsTriple h (fun i => p.eval (a + i * h)) (3 * j) =
      definiteIntegral p (a + j * (3 * h)) (a + (j + 1 : ℕ) * (3 * h)) := by
  obtain ⟨c, hc⟩ : ∃ c, c = a + (j + 1 / 2) * (3 * h) := ⟨_, rfl⟩
  have hfirst : a + (3 * j : ℕ) * h = a + j * (3 * h) := by push_cast; ring
  have hsecond : a + (3 * j + 1 : ℕ) * h = c - h / 2 := by rw [hc]; push_cast; ring
  have hthird : a + (3 * j + 2 : ℕ) * h = c + h / 2 := by rw [hc]; push_cast; ring
  have hlast : a + (3 * j + 3 : ℕ) * h = a + (j + 1 : ℕ) * (3 * h) := by push_cast; ring
  have hfourth : derivative^[4] p = 0 := iterate_derivative_eq_zero (by omega)
  have hends := eval_add_eval_panel (show p.natDegree ≤ 5 by omega) a (3 * h) j
  have hinner := eval_add_add_eval_sub (show p.natDegree ≤ 5 by omega) c (h / 2)
  rw [← hc, hfourth, eval_zero] at hends
  rw [hfourth, eval_zero] at hinner
  rw [threeEighthsTriple, hfirst, hsecond, hthird, hlast, definiteIntegral_panel (by omega), ← hc,
    hfourth, eval_zero]
  linear_combination 3 * h / 8 * hends + 9 * h / 8 * hinner

theorem sum_threeEighthsTriple_polynomial (k : ℕ) :
    ∑ j ∈ range k, threeEighthsTriple h (fun i => p.eval (a + i * h)) (3 * j) =
      definiteIntegral p a (a + (3 * k : ℕ) * h) := by
  have htelescope := sum_definiteIntegral p (fun j => a + j * (3 * h)) k
  have hlast : a + k * (3 * h) = a + (3 * k : ℕ) * h := by push_cast; ring
  rw [Nat.cast_zero, zero_mul, add_zero, hlast] at htelescope
  rw [← htelescope]
  exact sum_congr rfl fun j _ => threeEighthsTriple_polynomial hp a h j

/-- Panels under chords have the error of each of them. -/
theorem sum_trapezoidPanel_polynomial (k : ℕ) :
    ∑ i ∈ range k, trapezoidPanel h (fun i => p.eval (a + i * h)) i =
      definiteIntegral p a (a + k * h) +
        ∑ i ∈ range k, h ^ 3 / 12 * (derivative^[2] p).eval (a + (i + 1 / 2) * h) := by
  have htelescope := sum_definiteIntegral p (fun i => a + i * h) k
  rw [Nat.cast_zero, zero_mul, add_zero] at htelescope
  rw [← htelescope, ← sum_add_distrib]
  exact sum_congr rfl fun i _ => trapezoidPanel_polynomial hp a h i

end Sums

/-- Panels from the node `m` on, counted from there. -/
theorem sum_Ico_trapezoidPanel (F : ℚ → ℚ) (a h : ℚ) (m n : ℕ) :
    ∑ i ∈ Ico m n, trapezoidPanel h (fun i => F (a + i * h)) i =
      ∑ i ∈ range (n - m), trapezoidPanel h (fun i => F (a + m * h + i * h)) i := by
  rw [sum_Ico_eq_sum_range]
  refine sum_congr rfl fun i _ => ?_
  have hnode (j : ℕ) : a + (m + j : ℕ) * h = a + m * h + j * h := by push_cast; ring
  rw [trapezoidPanel, add_assoc m i 1, hnode, hnode, trapezoidPanel]

namespace FixedRule

variable {f : Integrand ℚ} {a b : ℚ} {n : ℕ}

/-- Over the panels from the node `m` on. -/
theorem integrate_trapezoidal_tail {h : ℚ} {m : ℕ} (hf : ∀ x, f x = .ok (p.eval x))
    (hp : p.natDegree ≤ 3) (hh : 0 < h) (hm : m < n) (hend : a + n * h = b) :
    trapezoidal.integrate f (a + m * h) b (n - m) =
      .ok (definiteIntegral p (a + m * h) b + ∑ i ∈ range (n - m),
        h ^ 3 / 12 * (derivative^[2] p).eval (a + m * h + (i + 1 / 2) * h)) := by
  have hne : (⟨a + m * h, b, n - m⟩ : Grid ℚ).panels ≠ 0 := Nat.sub_ne_zero_of_lt hm
  have hcast : ((n - m : ℕ) : ℚ) = n - m := Nat.cast_sub hm.le
  have hpos : (0 : ℚ) < (n - m : ℕ) := Nat.cast_pos.2 (Nat.sub_pos_of_lt hm)
  have hwidth : a + m * h + (n - m : ℕ) * h = b := by rw [hcast]; linear_combination hend
  have hstep : (⟨a + m * h, b, n - m⟩ : Grid ℚ).step = h := by
    rw [Grid.step, ← hwidth, add_sub_cancel_left, mul_div_cancel_left₀ _ hpos.ne']
  have hab : a + m * h < b := by
    rw [← hwidth]
    exact lt_add_of_pos_right _ (mul_pos hpos hh)
  have hvalue := integrate_trapezoidal (g := ⟨a + m * h, b, n - m⟩) hab
    (fun i _ => evaluate_node hf hne i) (Nat.sub_pos_of_lt hm)
  dsimp only at hvalue
  rw [hvalue, hstep, sum_trapezoidPanel_polynomial hp, hwidth]

/-- For a cubic the value `v` of the three-eighths rule has the error of the trapezoidal rule
on the panels after the last whole triple, which is the sum of the errors of these panels. So
the rule is exact for cubics where no panel is left, and for polynomials of degree one. -/
theorem threeEighths_error {f : Integrand ℚ} {a b : ℚ} {n : ℕ} (hf : ∀ x, f x = .ok (p.eval x))
    (hp : p.natDegree ≤ 3) (hab : a < b) (hn : 3 ≤ n) :
    let h := (b - a) / n
    let m := n - n % 3
    let s := a + m * h
    ∃ I v : ℚ, (I : ℝ) = ∫ x in (a : ℝ)..b, aeval x p ∧
      simpsonThreeEighths.integrate f a b n = .ok v ∧
      v - I = ∑ i ∈ range (n - m), h ^ 3 / 12 * (derivative^[2] p).eval (s + (i + 1 / 2) * h) ∧
      (n % 3 ≠ 0 → ∃ J t : ℚ, (J : ℝ) = ∫ x in (s : ℝ)..b, aeval x p ∧
        trapezoidal.integrate f s b (n - m) = .ok t ∧ v - I = t - J) ∧
      (n % 3 = 0 → v = I) ∧ (p.natDegree ≤ 1 → v = I) := by
  intro h m s
  have hne : (⟨a, b, n⟩ : Grid ℚ).panels ≠ 0 := by show n ≠ 0; omega
  have hpos : (0 : ℚ) < n := Nat.cast_pos.2 (by omega)
  have hstep : 0 < h := div_pos (sub_pos.2 hab) hpos
  have hend : a + n * h = b := by rw [mul_div_cancel₀ _ hpos.ne', add_sub_cancel]
  have hcut : 3 * (n / 3) = m := by omega
  have htail : s + (n - m : ℕ) * h = b := by
    rw [Nat.cast_sub (Nat.sub_le n _)]
    linear_combination hend
  -- the triples have the integral up to `s`, the panels after it that from `s` on and an error
  have hvalue : simpsonThreeEighths.integrate f a b n = .ok (definiteIntegral p a b +
      ∑ i ∈ range (n - m), h ^ 3 / 12 * (derivative^[2] p).eval (s + (i + 1 / 2) * h)) := by
    have hsums := integrate_threeEighths (g := ⟨a, b, n⟩) hab
      (fun i _ => evaluate_node hf hne i) hn
    rw [show (⟨a, b, n⟩ : Grid ℚ).step = h from rfl] at hsums
    dsimp only at hsums
    rw [hsums, sum_threeEighthsTriple_polynomial hp, hcut,
      sum_Ico_trapezoidPanel (fun x => p.eval x), sum_trapezoidPanel_polynomial hp, htail,
      ← add_assoc, definiteIntegral_add]
  refine ⟨definiteIntegral p a b, _, cast_definiteIntegral p a b, hvalue, add_sub_cancel_left _ _,
    fun hrest => ?_, fun hrest => ?_, fun hlinear => ?_⟩
  · have hchords := integrate_trapezoidal_tail (m := m) hf hp hstep (by omega) hend
    refine ⟨definiteIntegral p s b, _, cast_definiteIntegral p s b, hchords, ?_⟩
    rw [add_sub_cancel_left, add_sub_cancel_left]
  · have hnone : n - m = 0 := by omega
    rw [hnone, range_zero, sum_empty, add_zero]
  · have hsecond : derivative^[2] p = 0 := iterate_derivative_eq_zero (by omega)
    simp only [hsecond, eval_zero, mul_zero, sum_const_zero, add_zero]

/-- The cube on five panels, two of which are left to chords. -/
theorem threeEighths_error_cube :
    let f := Integrand.ofFunction fun x : ℚ => x ^ 3
    (X ^ 3 : ℚ[X]).natDegree ≤ 3 ∧ (∀ x, f x = .ok ((X ^ 3 : ℚ[X]).eval x)) ∧
      ∃ I v : ℚ, (I : ℝ) = ∫ x in ((0 : ℚ) : ℝ)..((5 : ℚ) : ℝ), aeval x (X ^ 3 : ℚ[X]) ∧
        simpsonThreeEighths.integrate f 0 5 5 = .ok v ∧ v - I = 4 := by
  intro f
  have hp : (X ^ 3 : ℚ[X]).natDegree ≤ 3 := natDegree_X_pow_le 3
  have hf (x : ℚ) : f x = .ok ((X ^ 3 : ℚ[X]).eval x) := by
    rw [eval_pow, eval_X]
    exact Integrand.ofFunction_exact _ x
  obtain ⟨I, v, hI, hv, herror, -⟩ :=
    threeEighths_error hf hp (a := 0) (b := 5) (n := 5) (by norm_num) (by norm_num)
  refine ⟨hp, hf, I, v, hI, hv, herror.trans ?_⟩
  norm_num [sum_range_succ, derivative_X_pow]

end FixedRule

end Quadrature
