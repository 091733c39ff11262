import Mathlib
import Quadrature.Proofs.Derivative
import Quadrature.Proofs.Rule.Panels

/-!
# Rules and bounds on polynomials

On a panel the error of a formula for a polynomial of low degree is a multiple of one
derivative at the midpoint; over equal panels of an interval these derivatives have the one at
the centre of the interval as their mean. So the error of a rule is the term of its bound,
with the derivative at the centre in place of the greatest one.
-/

open Finset Polynomial

namespace Quadrature

variable {p : ℚ[X]} {a b h : ℚ} {n : ℕ}

/-! ## Panels -/

theorem trapezoidPanel_polynomial (hp : p.natDegree ≤ 3) (a h : ℚ) (i : ℕ) :
    trapezoidPanel h (fun i => p.eval (a + i * h)) i =
      definiteIntegral p (a + i * h) (a + (i + 1 : ℕ) * h) +
        h ^ 3 / 12 * (derivative^[2] p).eval (a + (i + 1 / 2) * h) := by
  have hfourth : derivative^[4] p = 0 := iterate_derivative_eq_zero (by omega)
  rw [trapezoidPanel, eval_add_eval_panel (by omega), definiteIntegral_panel (by omega), hfourth,
    eval_zero]
  ring

theorem midpointPanel_polynomial (hp : p.natDegree ≤ 3) (a h : ℚ) (i : ℕ) :
    h * p.eval (a + (i + 1 / 2) * h) =
      definiteIntegral p (a + i * h) (a + (i + 1 : ℕ) * h) +
        -(h ^ 3 / 24) * (derivative^[2] p).eval (a + (i + 1 / 2) * h) := by
  have hfourth : derivative^[4] p = 0 := iterate_derivative_eq_zero (by omega)
  rw [definiteIntegral_panel (by omega), hfourth, eval_zero]
  ring

/-- A pair of panels is one panel of twice the width. -/
theorem simpsonPair_polynomial (hp : p.natDegree ≤ 5) (a h : ℚ) (j : ℕ) :
    simpsonPair h (fun i => p.eval (a + i * h)) (2 * j) =
      definiteIntegral p (a + j * (2 * h)) (a + (j + 1 : ℕ) * (2 * h)) +
        h ^ 5 / 90 * (derivative^[4] p).eval (a + (j + 1 / 2) * (2 * h)) := by
  have hfirst : a + (2 * j : ℕ) * h = a + j * (2 * h) := by push_cast; ring
  have hmiddle : a + (2 * j + 1 : ℕ) * h = a + (j + 1 / 2) * (2 * h) := by push_cast; ring
  have hlast : a + (2 * j + 2 : ℕ) * h = a + (j + 1 : ℕ) * (2 * h) := by push_cast; ring
  have hends := eval_add_eval_panel hp a (2 * h) j
  rw [simpsonPair, hfirst, hmiddle, hlast, definiteIntegral_panel hp]
  linear_combination h / 3 * hends

/-! ## Rules -/

theorem evaluate_node {f : Integrand ℚ} {g : Grid ℚ} (hf : ∀ x, f x = .ok (p.eval x))
    (hg : g.panels ≠ 0) (i : ℕ) : f (g.node i) = .ok (p.eval (g.a + i * g.step)) := by
  rw [Grid.node_exact hg, hf]

theorem natDegree_second (hp : p.natDegree ≤ 3) : (derivative^[2] p).natDegree ≤ 1 :=
  (natDegree_iterate_derivative p 2).trans (by omega)

theorem natDegree_fourth (hp : p.natDegree ≤ 5) : (derivative^[4] p).natDegree ≤ 1 :=
  (natDegree_iterate_derivative p 4).trans (by omega)

namespace FixedRule

variable {f : Integrand ℚ} {g : Grid ℚ} (hf : ∀ x, f x = .ok (p.eval x)) (hab : g.a < g.b)
  (hg : 1 ≤ g.panels)

include hf hab hg

theorem integrate_trapezoidal_polynomial (hp : p.natDegree ≤ 3) :
    trapezoidal.integrate f g.a g.b g.panels = .ok (definiteIntegral p g.a g.b +
      (g.b - g.a) ^ 3 * (derivative^[2] p).eval ((g.a + g.b) / 2) / (12 * g.panels ^ 2)) := by
  have hne : g.panels ≠ 0 := by omega
  have hwidth := Grid.step_mul_panels hne
  have hcast : (g.panels : ℚ) ≠ 0 := Nat.cast_ne_zero.2 hne
  rw [integrate_trapezoidal hab (fun i _ => evaluate_node hf hne i) hg,
    sum_panels (natDegree_second hp) hwidth (trapezoidPanel_polynomial hp g.a g.step), ← hwidth]
  congr 2
  field_simp

theorem integrate_midpoint_polynomial (hp : p.natDegree ≤ 3) :
    midpoint.integrate f g.a g.b g.panels = .ok (definiteIntegral p g.a g.b -
      (g.b - g.a) ^ 3 * (derivative^[2] p).eval ((g.a + g.b) / 2) / (24 * g.panels ^ 2)) := by
  have hne : g.panels ≠ 0 := by omega
  have hvalues : ∀ i < g.panels, f (g.midpoint i) =
      .ok (p.eval (g.a + (i + 1 / 2) * g.step)) :=
    fun i _ => by rw [Grid.midpoint_exact, hf]
  have hwidth := Grid.step_mul_panels hne
  have hcast : (g.panels : ℚ) ≠ 0 := Nat.cast_ne_zero.2 hne
  rw [integrate_midpoint hab hg hvalues,
    sum_panels (natDegree_second hp) hwidth (midpointPanel_polynomial hp g.a g.step), ← hwidth,
    sub_eq_add_neg]
  congr 2
  field_simp

theorem integrate_simpson_polynomial (hp : p.natDegree ≤ 5) (heven : g.panels % 2 = 0) :
    simpsonOneThird.integrate f g.a g.b g.panels = .ok (definiteIntegral p g.a g.b +
      (g.b - g.a) ^ 5 * (derivative^[4] p).eval ((g.a + g.b) / 2) / (180 * g.panels ^ 4)) := by
  have hne : g.panels ≠ 0 := by omega
  have hpairs : 2 * (g.panels / 2) = g.panels := by omega
  have htwice : (g.panels : ℚ) = 2 * (g.panels / 2 : ℕ) := by exact_mod_cast hpairs.symm
  have hcast : ((g.panels / 2 : ℕ) : ℚ) ≠ 0 := Nat.cast_ne_zero.2 (by omega)
  have hwidth : (g.panels / 2 : ℕ) * (2 * g.step) = g.b - g.a := by
    rw [← Grid.step_mul_panels hne, htwice]
    ring
  rw [integrate_simpson hab (fun i _ => evaluate_node hf hne i) hg, hpairs, Ico_self, sum_empty,
    add_zero, sum_panels (natDegree_fourth hp) hwidth (simpsonPair_polynomial hp g.a g.step),
    ← hwidth, htwice]
  congr 2
  field_simp
  ring

/-- An odd number of panels leaves the error of the last one, which is under a chord. -/
theorem integrate_simpson_polynomial_of_odd (hp : p.natDegree ≤ 3) (hodd : g.panels % 2 = 1) :
    let s := splitPoint g.a g.b g.panels
    simpsonOneThird.integrate f g.a g.b g.panels = .ok (definiteIntegral p g.a g.b +
      (g.b - s) ^ 3 * (derivative^[2] p).eval ((s + g.b) / 2) / (12 * (1 : ℕ) ^ 2)) := by
  intro s
  have hne : g.panels ≠ 0 := by omega
  obtain ⟨m, hm⟩ : ∃ m, g.panels = 2 * m + 1 := ⟨g.panels / 2, by omega⟩
  have hpanels : 2 * (m : ℚ) + 1 = g.panels := by exact_mod_cast hm.symm
  have hwhole := Grid.step_mul_panels hne
  have hlast : s + g.step = g.b := Grid.splitPoint_add_step hne
  rw [← hpanels] at hwhole
  -- the pairs end at the split point and the last panel begins there
  have hwidth : m * (2 * g.step) = s - g.a := by linear_combination hwhole - hlast
  have hsplit : g.a + (2 * m : ℕ) * g.step = s := by push_cast; linear_combination hwidth
  have hend : g.a + (2 * m + 1 : ℕ) * g.step = g.b := by push_cast; linear_combination hwhole
  have hcentre : g.a + ((2 * m : ℕ) + 1 / 2) * g.step = (s + g.b) / 2 := by
    linear_combination hsplit + hlast / 2
  have hfourth : derivative^[4] p = 0 := iterate_derivative_eq_zero (by omega)
  have hpairs := sum_panels (natDegree_fourth (by omega)) hwidth
    (simpsonPair_polynomial (p := p) (by omega) g.a g.step)
  have htail := trapezoidPanel_polynomial hp g.a g.step (2 * m)
  have hhalf : g.panels / 2 = m := by omega
  rw [hfourth, eval_zero, mul_zero, add_zero] at hpairs
  rw [hsplit, hend, hcentre] at htail
  rw [integrate_simpson hab (fun i _ => evaluate_node hf hne i) hg, hhalf, hm,
    Nat.Ico_succ_singleton, sum_singleton, hpairs, htail, ← definiteIntegral_add p g.a s g.b,
    ← hlast]
  congr 1
  push_cast
  ring

end FixedRule

/-! ## Bounds -/

theorem boundTerm_exact (w d c : ℚ) (p q n : ℕ) :
    boundTerm w d c p q n = |w ^ p * d / (c * n ^ q)| := by
  rw [boundTerm, Scalar.pow_exact, Scalar.pow_exact, Scalar.abs_exact]

section Bounds

variable {f : Integrand ℚ} (hf : ∀ x, f x = .ok (p.eval x))

include hf

theorem trapezoidalBound_polynomial {steps : ℕ} (hp : p.natDegree ≤ 3) (hsteps : steps ≠ 0) :
    trapezoidalBound f a b n steps =
      |(b - a) ^ 3 * max |(derivative^[2] p).eval a| |(derivative^[2] p).eval b| /
        (12 * n ^ 2)| := by
  rw [trapezoidalBound, boundTerm_exact, secondDerivativeBound_polynomial hf hp hsteps]
  norm_num

theorem midpointBound_polynomial (hp : p.natDegree ≤ 3) :
    midpointBound f a b n =
      |(b - a) ^ 3 * max |(derivative^[2] p).eval a| |(derivative^[2] p).eval b| /
        (24 * n ^ 2)| := by
  rw [midpointBound, boundTerm_exact, secondDerivativeBound_polynomial hf hp (by decide)]
  norm_num

theorem simpsonBound_polynomial (hp : p.natDegree ≤ 5) :
    simpsonBound f a b n =
      |(b - a) ^ 5 * max |(derivative^[4] p).eval a| |(derivative^[4] p).eval b| /
        (180 * n ^ 4)| := by
  rw [simpsonBound, boundTerm_exact, fourthDerivativeBound_polynomial hf hp (by decide)]
  norm_num

/-- A cubic has no fourth derivative, so only the last of an odd number of panels counts. -/
theorem bound_simpson_of_odd (hp : p.natDegree ≤ 3) (hodd : n % 2 = 1) :
    FixedRule.simpsonOneThird.bound? f a b n =
      some (trapezoidalBound f (splitPoint a b n) b 1 coarseSteps) := by
  rw [FixedRule.bound?, if_neg (by omega)]
  split_ifs with hone
  · subst hone
    norm_num [splitPoint]
  · have hfourth : derivative^[4] p = 0 := iterate_derivative_eq_zero (by omega)
    have hzero : simpsonBound f a (splitPoint a b n) (n - 1) = 0 := by
      rw [simpsonBound_polynomial hf (by omega), hfourth]
      simp
    simp only [hzero]
    rw [zero_add]

end Bounds

theorem FixedRule.errorBound_exact {r : FixedRule} {f : Integrand ℚ} (hab : a < b)
    (hn : (Rule.fixed r).minPanels ≤ n) : r.errorBound f a b n = .ok (r.bound? f a b n) := by
  rw [errorBound, Rule.check_exact hab hn]
  rfl

end Quadrature
