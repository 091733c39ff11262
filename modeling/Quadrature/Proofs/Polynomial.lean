import Mathlib

/-!
# Polynomials about a centre

The values and the integral of a rational polynomial in an interval, by its derivatives at
the centre of the interval. Odd terms cancel, so a polynomial of degree at most five has
three terms: those of its value, its second and its fourth derivative.
-/

open Finset Polynomial

namespace Quadrature

variable {p q : ℚ[X]} {a b c h t x : ℚ} {n : ℕ}

theorem eval_add_eq_sum (hp : p.natDegree < n) (c t : ℚ) :
    p.eval (c + t) = ∑ k ∈ range n, (derivative^[k] p).eval c / k.factorial * t ^ k := by
  have htaylor : p.eval (c + t) = (taylor c p).eval t := by rw [taylor_eval, add_comm]
  rw [htaylor, eval_eq_sum_range' (by rwa [natDegree_taylor])]
  refine sum_congr rfl fun k _ => ?_
  have hk : (k.factorial : ℚ) ≠ 0 := Nat.cast_ne_zero.2 k.factorial_ne_zero
  have hderiv : (derivative^[k] p).eval c = k.factorial * (hasseDeriv k p).eval c := by
    rw [← factorial_smul_hasseDeriv, LinearMap.smul_apply, eval_smul, nsmul_eq_mul]
  rw [hderiv, mul_div_cancel_left₀ _ hk, taylor_coeff]

theorem eval_add_add_eval_sub (hp : p.natDegree ≤ 5) (c t : ℚ) :
    p.eval (c + t) + p.eval (c - t) =
      2 * p.eval c + (derivative^[2] p).eval c * t ^ 2 +
        (derivative^[4] p).eval c / 12 * t ^ 4 := by
  have hlt : p.natDegree < 6 := by omega
  rw [sub_eq_add_neg, eval_add_eq_sum hlt, eval_add_eq_sum hlt]
  simp only [sum_range_succ, range_zero, sum_empty, Function.iterate_zero, id_eq]
  norm_num [Nat.factorial]
  ring

/-! ## Integrals -/

/-- The polynomial without constant term whose derivative is the given one. -/
noncomputable def primitive (p : ℚ[X]) : ℚ[X] :=
  p.sum fun k c => monomial (k + 1) (c / (k + 1))

theorem derivative_primitive (p : ℚ[X]) : derivative (primitive p) = p := by
  rw [primitive, Polynomial.sum, derivative_sum]
  conv_rhs => rw [p.as_sum_support]
  refine sum_congr rfl fun k _ => ?_
  have hk : (k : ℚ) + 1 ≠ 0 := Nat.cast_add_one_ne_zero k
  rw [derivative_monomial, Nat.add_sub_cancel, Nat.cast_add_one, div_mul_cancel₀ _ hk]

theorem natDegree_primitive_le (p : ℚ[X]) : (primitive p).natDegree ≤ p.natDegree + 1 := by
  refine natDegree_sum_le_of_forall_le _ _ fun k hk => ?_
  exact (natDegree_monomial_le _).trans (Nat.succ_le_succ (le_natDegree_of_mem_supp k hk))

theorem iterate_derivative_primitive (p : ℚ[X]) (k : ℕ) :
    derivative^[k + 1] (primitive p) = derivative^[k] p := by
  rw [Function.iterate_succ_apply, derivative_primitive]

/-- The integral from `a` to `b`. -/
noncomputable def definiteIntegral (p : ℚ[X]) (a b : ℚ) : ℚ :=
  (primitive p).eval b - (primitive p).eval a

theorem cast_definiteIntegral (p : ℚ[X]) (a b : ℚ) :
    (definiteIntegral p a b : ℝ) = ∫ x in (a : ℝ)..b, aeval x p := by
  have hderiv (x : ℝ) : HasDerivAt (fun x => aeval x (primitive p)) (aeval x p) x := by
    have h := (primitive p).hasDerivAt_aeval x
    rwa [derivative_primitive] at h
  have hcast (x : ℚ) : aeval (x : ℝ) (primitive p) = (((primitive p).eval x : ℚ) : ℝ) :=
    aeval_algebraMap_apply_eq_algebraMap_eval x (primitive p)
  rw [intervalIntegral.integral_eq_sub_of_hasDerivAt (fun x _ => hderiv x)
    (p.continuous_aeval.intervalIntegrable _ _), hcast, hcast, definiteIntegral, Rat.cast_sub]

theorem sum_definiteIntegral (p : ℚ[X]) (x : ℕ → ℚ) (n : ℕ) :
    ∑ i ∈ range n, definiteIntegral p (x i) (x (i + 1)) = definiteIntegral p (x 0) (x n) :=
  sum_range_sub (fun i => (primitive p).eval (x i)) n

theorem definiteIntegral_add (p : ℚ[X]) (a b c : ℚ) :
    definiteIntegral p a b + definiteIntegral p b c = definiteIntegral p a c :=
  add_comm _ _ |>.trans (sub_add_sub_cancel _ _ _)

theorem definiteIntegral_symmetric (hp : p.natDegree ≤ 5) (c t : ℚ) :
    definiteIntegral p (c - t) (c + t) =
      2 * t * p.eval c + (derivative^[2] p).eval c / 3 * t ^ 3 +
        (derivative^[4] p).eval c / 60 * t ^ 5 := by
  have hlt : (primitive p).natDegree < 7 := by
    have hle := natDegree_primitive_le p
    omega
  rw [definiteIntegral, sub_eq_add_neg c, eval_add_eq_sum hlt, eval_add_eq_sum hlt]
  simp only [sum_range_succ, range_zero, sum_empty, iterate_derivative_primitive,
    Function.iterate_zero, id_eq]
  norm_num [Nat.factorial]
  ring

/-! ## Panels of equal width -/

section Panels

variable (hp : p.natDegree ≤ 5) (a h : ℚ) (i : ℕ)

include hp

theorem eval_add_eval_panel :
    p.eval (a + i * h) + p.eval (a + (i + 1 : ℕ) * h) =
      2 * p.eval (a + (i + 1 / 2) * h) +
        (derivative^[2] p).eval (a + (i + 1 / 2) * h) / 4 * h ^ 2 +
          (derivative^[4] p).eval (a + (i + 1 / 2) * h) / 192 * h ^ 4 := by
  have hleft : a + i * h = a + (i + 1 / 2) * h - h / 2 := by ring
  have hright : a + (i + 1 : ℕ) * h = a + (i + 1 / 2) * h + h / 2 := by push_cast; ring
  rw [hleft, hright, add_comm, eval_add_add_eval_sub hp]
  ring

theorem definiteIntegral_panel :
    definiteIntegral p (a + i * h) (a + (i + 1 : ℕ) * h) =
      h * p.eval (a + (i + 1 / 2) * h) +
        (derivative^[2] p).eval (a + (i + 1 / 2) * h) / 24 * h ^ 3 +
          (derivative^[4] p).eval (a + (i + 1 / 2) * h) / 1920 * h ^ 5 := by
  have hleft : a + i * h = a + (i + 1 / 2) * h - h / 2 := by ring
  have hright : a + (i + 1 : ℕ) * h = a + (i + 1 / 2) * h + h / 2 := by push_cast; ring
  rw [hleft, hright, definiteIntegral_symmetric hp]
  ring

end Panels

/-! ## Polynomials of degree one -/

section Affine

variable (hq : q.natDegree ≤ 1)

include hq

theorem eval_affine (x : ℚ) : q.eval x = q.coeff 0 + q.coeff 1 * x := by
  rw [eval_eq_sum_range' (Nat.lt_succ_of_le hq), sum_range_succ, sum_range_one, pow_zero, mul_one,
    pow_one]

/-- The values at the midpoints of `n` panels have the value at the centre as their mean. -/
theorem sum_eval_midpoints (a h : ℚ) (n : ℕ) :
    ∑ i ∈ range n, q.eval (a + (i + 1 / 2) * h) = n * q.eval (a + n * h / 2) := by
  simp only [eval_affine hq]
  induction n with
  | zero => simp
  | succ n ih =>
    rw [sum_range_succ, ih]
    push_cast
    ring

/-- Values that differ from the integrals over the `n` panels of an interval by the same
multiple of a polynomial of degree one at the midpoints of the panels. -/
theorem sum_panels {u : ℕ → ℚ} {k : ℚ} (hwidth : n * h = b - a) (hu : ∀ i, u i =
      definiteIntegral p (a + i * h) (a + (i + 1 : ℕ) * h) + k * q.eval (a + (i + 1 / 2) * h)) :
    ∑ i ∈ range n, u i = definiteIntegral p a b + n * k * q.eval ((a + b) / 2) := by
  have hends := sum_definiteIntegral p (fun i => a + i * h) n
  have hcentre : a + (b - a) / 2 = (a + b) / 2 := by ring
  rw [Nat.cast_zero, zero_mul, add_zero, hwidth, add_sub_cancel] at hends
  rw [sum_congr rfl fun i _ => hu i, sum_add_distrib, hends, ← mul_sum, sum_eval_midpoints hq,
    hwidth, hcentre]
  ring

theorem abs_eval_le_max {s : ℚ} (h0 : 0 ≤ s) (h1 : s ≤ 1) (a b : ℚ) :
    |q.eval (a + s * (b - a))| ≤ max |q.eval a| |q.eval b| := by
  have hmean : q.eval (a + s * (b - a)) = (1 - s) * q.eval a + s * q.eval b := by
    simp only [eval_affine hq]
    ring
  calc |q.eval (a + s * (b - a))|
      ≤ |(1 - s) * q.eval a| + |s * q.eval b| := hmean ▸ abs_add_le _ _
    _ = (1 - s) * |q.eval a| + s * |q.eval b| := by
      rw [abs_mul, abs_mul, abs_of_nonneg h0, abs_of_nonneg (sub_nonneg.2 h1)]
    _ ≤ (1 - s) * max |q.eval a| |q.eval b| + s * max |q.eval a| |q.eval b| :=
      add_le_add (mul_le_mul_of_nonneg_left (le_max_left _ _) (sub_nonneg.2 h1))
        (mul_le_mul_of_nonneg_left (le_max_right _ _) h0)
    _ = max |q.eval a| |q.eval b| := by ring

end Affine

theorem abs_eval_eq_max (hq : q.natDegree ≤ 0) (a b x : ℚ) :
    |q.eval x| = max |q.eval a| |q.eval b| := by
  rw [eq_C_of_natDegree_le_zero hq]
  simp

/-! ## Errors and their bounds

The error of a formula is a term with the value of a derivative at the centre of an
interval, its bound the same term with the greater of the magnitudes at the ends.
-/

theorem abs_term_le (hq : q.natDegree ≤ 1) (a b w c : ℚ) :
    |w * q.eval ((a + b) / 2) / c| ≤ |w * max |q.eval a| |q.eval b| / c| := by
  have hcentre : a + 1 / 2 * (b - a) = (a + b) / 2 := by ring
  have hle := abs_eval_le_max hq (s := 1 / 2) (by norm_num) (by norm_num) a b
  rw [hcentre] at hle
  rw [mul_div_right_comm, mul_div_right_comm, abs_mul, abs_mul]
  exact mul_le_mul_of_nonneg_left (hle.trans (le_abs_self _)) (abs_nonneg _)

theorem abs_term_eq (hq : q.natDegree ≤ 0) (a b w c : ℚ) :
    |w * q.eval ((a + b) / 2) / c| = |w * max |q.eval a| |q.eval b| / c| := by
  rw [← abs_eval_eq_max hq a b ((a + b) / 2), mul_div_right_comm, mul_div_right_comm, abs_mul,
    abs_mul, abs_abs]

end Quadrature
