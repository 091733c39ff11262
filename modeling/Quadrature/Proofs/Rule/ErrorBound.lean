import Mathlib
import Quadrature.Proofs.Rule.Accuracy

/-!
# Error bounds and errors

Without rounding the bound of a rule covers its error wherever the derivative in it is of
degree one at most, and is the error itself where that derivative is constant. Main
statements: `trapezoidal_midpoint_errorBound` and `simpson_errorBound`.
-/

open Polynomial

namespace Quadrature

namespace FixedRule

variable {f : Integrand ℚ} {p : ℚ[X]} {a b : ℚ} {n : ℕ}

theorem natDegree_second_eq_zero (hp : p.natDegree ≤ 2) : (derivative^[2] p).natDegree ≤ 0 :=
  (natDegree_iterate_derivative p 2).trans (by omega)

/-- For a cubic the bounds of the trapezoidal value `t` and of the midpoint value `m` cover
their errors, which are the bounds themselves for a quadratic; the trapezoidal error is twice
the midpoint error and of the other sign. -/
theorem trapezoidal_midpoint_errorBound (hp : p.natDegree ≤ 3) (hf : ∀ x, f x = .ok (p.eval x))
    (hab : a < b) (hn : 1 ≤ n) :
    ∃ I t m B C : ℚ, (I : ℝ) = ∫ x in (a : ℝ)..b, aeval x p ∧
      trapezoidal.integrate f a b n = .ok t ∧ trapezoidal.errorBound f a b n = .ok (some B) ∧
      midpoint.integrate f a b n = .ok m ∧ midpoint.errorBound f a b n = .ok (some C) ∧
      |t - I| ≤ B ∧ |m - I| ≤ C ∧ (p.natDegree ≤ 2 → |t - I| = B ∧ |m - I| = C) ∧
      t - I = -2 * (m - I) := by
  have ht := integrate_trapezoidal_polynomial (g := ⟨a, b, n⟩) hf hab hn hp
  have hm := integrate_midpoint_polynomial (g := ⟨a, b, n⟩) hf hab hn hp
  have hB := errorBound_exact (r := trapezoidal) (f := f) hab hn
  have hC := errorBound_exact (r := midpoint) (f := f) hab hn
  rw [bound?, trapezoidalBound_polynomial hf hp (by decide)] at hB
  rw [bound?, midpointBound_polynomial hf hp] at hC
  dsimp only at ht hm
  refine ⟨definiteIntegral p a b, _, _, _, _, cast_definiteIntegral p a b, ht, hB, hm, hC, ?_⟩
  rw [add_sub_cancel_left, sub_sub_cancel_left, abs_neg]
  refine ⟨abs_term_le (natDegree_second hp) a b _ _, abs_term_le (natDegree_second hp) a b _ _,
    fun hquadratic => ?_, by ring⟩
  have hconstant := natDegree_second_eq_zero hquadratic
  exact ⟨abs_term_eq hconstant a b _ _, abs_term_eq hconstant a b _ _⟩

/-- The cube on ten panels of the unit interval. -/
theorem trapezoidal_midpoint_errorBound_cube :
    let f := Integrand.ofFunction fun x : ℚ => x ^ 3
    (X ^ 3 : ℚ[X]).natDegree ≤ 3 ∧ (∀ x, f x = .ok ((X ^ 3 : ℚ[X]).eval x)) ∧
      ∃ I t m B C : ℚ, (I : ℝ) = ∫ x in ((0 : ℚ) : ℝ)..((1 : ℚ) : ℝ), aeval x (X ^ 3 : ℚ[X]) ∧
        trapezoidal.integrate f 0 1 10 = .ok t ∧ trapezoidal.errorBound f 0 1 10 = .ok (some B) ∧
        midpoint.integrate f 0 1 10 = .ok m ∧ midpoint.errorBound f 0 1 10 = .ok (some C) ∧
        |t - I| ≤ B ∧ |m - I| ≤ C ∧ t - I = -2 * (m - I) := by
  intro f
  have hp : (X ^ 3 : ℚ[X]).natDegree ≤ 3 := natDegree_X_pow_le 3
  have hf (x : ℚ) : f x = .ok ((X ^ 3 : ℚ[X]).eval x) := by
    rw [eval_pow, eval_X]
    exact Integrand.ofFunction_exact _ x
  obtain ⟨I, t, m, B, C, hI, ht, hB, hm, hC, htB, hmC, -, htm⟩ :=
    trapezoidal_midpoint_errorBound hp hf (a := 0) (b := 1) (n := 10) (by norm_num) (by norm_num)
  exact ⟨hp, hf, I, t, m, B, C, hI, ht, hB, hm, hC, htB, hmC, htm⟩

/-! ## Simpson's rule -/

section Simpson

variable {s B : ℚ} (hf : ∀ x, f x = .ok (p.eval x)) (hab : a < b) (hn : 1 ≤ n)
  (hs : simpsonOneThird.integrate f a b n = .ok s)
  (hB : simpsonOneThird.errorBound f a b n = .ok (some B))

include hf hab hn hs hB

theorem simpson_error_of_even (hp : p.natDegree ≤ 5) (heven : n % 2 = 0) :
    s - definiteIntegral p a b =
        (b - a) ^ 5 * (derivative^[4] p).eval ((a + b) / 2) / (180 * n ^ 4) ∧
      B = |(b - a) ^ 5 * max |(derivative^[4] p).eval a| |(derivative^[4] p).eval b| /
        (180 * n ^ 4)| := by
  have hvalue := integrate_simpson_polynomial (g := ⟨a, b, n⟩) hf hab hn hp heven
  rw [errorBound_exact hab hn, bound?, if_pos heven, simpsonBound_polynomial hf hp] at hB
  cases hs.symm.trans hvalue
  cases hB
  exact ⟨add_sub_cancel_left _ _, rfl⟩

theorem simpson_error_of_odd (hp : p.natDegree ≤ 3) (hodd : n % 2 = 1) :
    let c := splitPoint a b n
    s - definiteIntegral p a b =
        (b - c) ^ 3 * (derivative^[2] p).eval ((c + b) / 2) / (12 * (1 : ℕ) ^ 2) ∧
      B = |(b - c) ^ 3 * max |(derivative^[2] p).eval c| |(derivative^[2] p).eval b| /
        (12 * (1 : ℕ) ^ 2)| := by
  intro c
  have hvalue := integrate_simpson_polynomial_of_odd (g := ⟨a, b, n⟩) hf hab hn hp hodd
  rw [errorBound_exact hab hn, bound_simpson_of_odd hf hp hodd,
    trapezoidalBound_polynomial hf hp (by decide)] at hB
  cases hs.symm.trans hvalue
  cases hB
  exact ⟨add_sub_cancel_left _ _, rfl⟩

end Simpson

/-- For a polynomial the Simpson value `s` on an even number of panels has an error covered by
its bound up to degree five, equal to it up to degree four, and none up to degree three; on an
odd number it is covered up to degree three and equal up to degree two. -/
theorem simpson_errorBound (hf : ∀ x, f x = .ok (p.eval x)) (hab : a < b) (hn : 1 ≤ n) :
    ∃ I s B : ℚ, (I : ℝ) = ∫ x in (a : ℝ)..b, aeval x p ∧
      simpsonOneThird.integrate f a b n = .ok s ∧
      simpsonOneThird.errorBound f a b n = .ok (some B) ∧
      (n % 2 = 0 → (p.natDegree ≤ 5 → |s - I| ≤ B) ∧ (p.natDegree ≤ 4 → |s - I| = B) ∧
        (p.natDegree ≤ 3 → s = I)) ∧
      (n % 2 = 1 → (p.natDegree ≤ 3 → |s - I| ≤ B) ∧ (p.natDegree ≤ 2 → |s - I| = B)) := by
  have hne : (⟨a, b, n⟩ : Grid ℚ).panels ≠ 0 := by show n ≠ 0; omega
  obtain ⟨s, hs⟩ : ∃ s, simpsonOneThird.integrate f a b n = .ok s :=
    ⟨_, integrate_simpson (g := ⟨a, b, n⟩) hab (fun i _ => evaluate_node hf hne i) hn⟩
  obtain ⟨B, hB⟩ : ∃ B, simpsonOneThird.errorBound f a b n = .ok (some B) :=
    ⟨_, errorBound_exact hab hn⟩
  have heven := simpson_error_of_even hf hab hn hs hB
  have hodd := simpson_error_of_odd hf hab hn hs hB
  refine ⟨definiteIntegral p a b, s, B, cast_definiteIntegral p a b, hs, hB,
    fun h => ⟨fun hp => ?_, fun hp => ?_, fun hp => ?_⟩, fun h => ⟨fun hp => ?_, fun hp => ?_⟩⟩
  · obtain ⟨herror, rfl⟩ := heven hp h
    rw [herror]
    exact abs_term_le (natDegree_fourth hp) a b _ _
  · obtain ⟨herror, rfl⟩ := heven (by omega) h
    have hconstant : (derivative^[4] p).natDegree ≤ 0 :=
      (natDegree_iterate_derivative p 4).trans (by omega)
    rw [herror]
    exact abs_term_eq hconstant a b _ _
  · have hfourth : derivative^[4] p = 0 := iterate_derivative_eq_zero (by omega)
    have herror := (heven (by omega) h).1
    rw [hfourth, eval_zero, mul_zero, zero_div] at herror
    exact sub_eq_zero.1 herror
  · obtain ⟨herror, rfl⟩ := hodd hp h
    rw [herror]
    exact abs_term_le (natDegree_second hp) _ b _ _
  · obtain ⟨herror, rfl⟩ := hodd (by omega) h
    rw [herror]
    exact abs_term_eq (natDegree_second_eq_zero hp) _ b _ _

/-- The fourth power on one pair of panels and the square on a pair and a panel that is left:
the bound is the error. -/
theorem simpson_errorBound_powers :
    let f := Integrand.ofFunction fun x : ℚ => x ^ 4
    let g := Integrand.ofFunction fun x : ℚ => x ^ 2
    (∀ x, f x = .ok ((X ^ 4 : ℚ[X]).eval x)) ∧ (∀ x, g x = .ok ((X ^ 2 : ℚ[X]).eval x)) ∧
      (∃ I B : ℚ, (I : ℝ) = ∫ x in ((0 : ℚ) : ℝ)..((1 : ℚ) : ℝ), aeval x (X ^ 4 : ℚ[X]) ∧
        simpsonOneThird.integrate f 0 1 2 = .ok (5 / 24) ∧
        simpsonOneThird.errorBound f 0 1 2 = .ok (some B) ∧ |5 / 24 - I| = B) ∧
      ∃ I B : ℚ, (I : ℝ) = ∫ x in ((0 : ℚ) : ℝ)..((3 : ℚ) : ℝ), aeval x (X ^ 2 : ℚ[X]) ∧
        simpsonOneThird.integrate g 0 3 3 = .ok (55 / 6) ∧
        simpsonOneThird.errorBound g 0 3 3 = .ok (some B) ∧ |55 / 6 - I| = B := by
  intro f g
  have hf (x : ℚ) : f x = .ok ((X ^ 4 : ℚ[X]).eval x) := by
    rw [eval_pow, eval_X]
    exact Integrand.ofFunction_exact _ x
  have hg (x : ℚ) : g x = .ok ((X ^ 2 : ℚ[X]).eval x) := by
    rw [eval_pow, eval_X]
    exact Integrand.ofFunction_exact _ x
  have hpair : simpsonOneThird.integrate f 0 1 2 = .ok (5 / 24) := by decide +kernel
  have hleft : simpsonOneThird.integrate g 0 3 3 = .ok (55 / 6) := by decide +kernel
  obtain ⟨I, s, B, hI, hs, hB, heven, -⟩ :=
    simpson_errorBound hf (a := 0) (b := 1) (n := 2) (by norm_num) (by norm_num)
  obtain ⟨J, t, C, hJ, ht, hC, -, hodd⟩ :=
    simpson_errorBound hg (a := 0) (b := 3) (n := 3) (by norm_num) (by norm_num)
  obtain rfl : s = 5 / 24 := Except.ok.inj (hs.symm.trans hpair)
  obtain rfl : t = 55 / 6 := Except.ok.inj (ht.symm.trans hleft)
  exact ⟨hf, hg, ⟨I, B, hI, hs, hB, (heven rfl).2.1 (natDegree_X_pow_le 4)⟩,
    J, C, hJ, ht, hC, (hodd rfl).2 (natDegree_X_pow_le 2)⟩

end FixedRule

end Quadrature
