import Mathlib
import Quadrature.Derivative
import Quadrature.Proofs.Polynomial
import Quadrature.Proofs.Scalar.Exact

/-!
# Derivative bounds without rounding

The bound on a grid is the least upper bound of zero and the magnitudes on the grid
(`greatestOn_le_iff`). The second difference of a cubic is its second derivative and the
fourth difference of a polynomial of degree five its fourth, so that their bounds are the
greater of the magnitudes at the ends of the interval.
-/

open Polynomial

namespace Quadrature

section Grids

variable {a b c s : ℚ} {steps : ℕ} {d : ℚ → Option ℚ}

theorem raise_le_iff {o : Option ℚ} : raise s o ≤ c ↔ s ≤ c ∧ ∀ v, o = some v → |v| ≤ c := by
  cases o with
  | none => simp [raise]
  | some v =>
    have hraise : raise s (some v) = max s |v| := by
      simp only [raise, Scalar.isFinite_exact, Bool.true_and, Scalar.abs_exact,
        decide_eq_true_eq, max_def_lt]
    simp [hraise]

theorem foldl_raise_le_iff {e : ℕ → Option ℚ} {is : List ℕ} :
    is.foldl (fun bound i => raise bound (e i)) s ≤ c ↔
      s ≤ c ∧ ∀ i ∈ is, ∀ v, e i = some v → |v| ≤ c := by
  induction is generalizing s with
  | nil => simp
  | cons i is ih => rw [List.foldl_cons, ih, raise_le_iff, List.forall_mem_cons, and_assoc]

theorem greatestOn_le_iff (hsteps : steps ≠ 0) : greatestOn a b steps d ≤ c ↔
    0 ≤ c ∧ ∀ i ≤ steps, ∀ v, d (a + i * ((b - a) / steps)) = some v → |v| ≤ c := by
  have hmax : max steps 1 = steps := by omega
  have hzero : (0.0 : ℚ) = 0 := by norm_num
  rw [greatestOn, hmax]
  simp only [foldl_raise_le_iff, List.mem_range, Nat.lt_succ_iff]
  rw [← hzero]

variable {q : ℚ[X]}

theorem greatestOn_affine (hq : q.natDegree ≤ 1) (hsteps : steps ≠ 0)
    (hd : ∀ x, d x = some (q.eval x)) :
    greatestOn a b steps d = max |q.eval a| |q.eval b| := by
  have hcast : (steps : ℚ) ≠ 0 := Nat.cast_ne_zero.2 hsteps
  have hpos : (0 : ℚ) < steps := Nat.cast_pos.2 (Nat.pos_of_ne_zero hsteps)
  apply le_antisymm
  · refine (greatestOn_le_iff hsteps).2 ⟨le_max_of_le_left (abs_nonneg _), fun i hi v hv => ?_⟩
    have hpoint : a + i * ((b - a) / steps) = a + (i / steps : ℚ) * (b - a) := by ring
    have hle : (i : ℚ) / steps ≤ 1 := (div_le_one hpos).2 (Nat.cast_le.2 hi)
    rw [hd, hpoint] at hv
    rw [← Option.some.inj hv]
    exact abs_eval_le_max hq (by positivity) hle a b
  · -- the first and the last point of the grid are the ends of the interval
    obtain ⟨-, hgrid⟩ := (greatestOn_le_iff hsteps).1 (le_refl (greatestOn a b steps d))
    have hfirst := hgrid 0 (Nat.zero_le _) _ (hd _)
    have hlast := hgrid steps le_rfl _ (hd _)
    rw [Nat.cast_zero, zero_mul, add_zero] at hfirst
    rw [mul_div_cancel₀ _ hcast, add_sub_cancel] at hlast
    exact max_le hfirst hlast

end Grids

/-! ## Differences of polynomials -/

section Differences

variable {f : Integrand ℚ} {p : ℚ[X]} {a b : ℚ} {steps : ℕ} (hf : ∀ x, f x = .ok (p.eval x))

include hf

theorem secondDifference_polynomial (hp : p.natDegree ≤ 3) (x : ℚ) :
    secondDifference f x = some ((derivative^[2] p).eval x) := by
  have hpair := eval_add_add_eval_sub (p := p) (by omega) x (1 / 1000)
  have hfourth : derivative^[4] p = 0 := iterate_derivative_eq_zero (by omega)
  rw [hfourth, eval_zero, zero_div, zero_mul, add_zero] at hpair
  simp only [secondDifference, hf, Except.toOption]
  show some _ = some _
  norm_num at hpair ⊢
  linarith

theorem fourthDifference_polynomial (hp : p.natDegree ≤ 5) (x : ℚ) :
    fourthDifference f x = some ((derivative^[4] p).eval x) := by
  have hinner := eval_add_add_eval_sub hp x (1 / 100)
  have houter := eval_add_add_eval_sub hp x (2 / 100)
  have hpow : Scalar.pow (1e-2 : ℚ) 4 = 1e-2 ^ 4 := Scalar.pow_exact 4
  simp only [fourthDifference, hf, Except.toOption]
  show some _ = some _
  rw [hpow]
  norm_num at hinner houter ⊢
  linarith

theorem secondDerivativeBound_polynomial (hp : p.natDegree ≤ 3) (hsteps : steps ≠ 0) :
    secondDerivativeBound f a b steps =
      max |(derivative^[2] p).eval a| |(derivative^[2] p).eval b| := by
  have hdegree : (derivative^[2] p).natDegree ≤ 1 :=
    (natDegree_iterate_derivative p 2).trans (by omega)
  exact greatestOn_affine hdegree hsteps (secondDifference_polynomial hf hp)

theorem fourthDerivativeBound_polynomial (hp : p.natDegree ≤ 5) (hsteps : steps ≠ 0) :
    fourthDerivativeBound f a b steps =
      max |(derivative^[4] p).eval a| |(derivative^[4] p).eval b| := by
  have hdegree : (derivative^[4] p).natDegree ≤ 1 :=
    (natDegree_iterate_derivative p 4).trans (by omega)
  exact greatestOn_affine hdegree hsteps (fourthDifference_polynomial hf hp)

end Differences

end Quadrature
