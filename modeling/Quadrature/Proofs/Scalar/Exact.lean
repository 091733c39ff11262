import Mathlib
import Quadrature.Proofs.Rule.Error
import Quadrature.Scalar.Dot

/-!
# Arithmetic without rounding

The rationals as scalars: nothing is rounded, nothing overflows and no count wraps. Their
operations are those of the field: powers by repeated squaring are powers (`pow_exact`), the
eight running sums of an inner product add up to the sum of the products (`dot_range`), every
number is finite and only the order of the bounds can be refused (`checkBounds_exact`).
-/

namespace Quadrature

/-- The integer nearest to `q`; halves go away from zero. -/
def roundAway (q : Rat) : Int :=
  if q < 0 then -(-q + 1 / 2).floor else (q + 1 / 2).floor

instance : Scalar Rat where
  decidableLT := inferInstance
  decidableLE := inferInstance
  abs := Rat.abs
  round q := roundAway q
  isNaN _ := false
  isFinite _ := true
  value q := q
  count k := k

namespace Scalar

variable {x : ℚ}

@[simp] theorem isFinite_exact : Scalar.isFinite x = true := rfl

@[simp] theorem count_exact (k : ℕ) : Scalar.count ℚ k = k := rfl

@[simp] theorem abs_exact : Scalar.abs x = |x| := by
  show Rat.abs x = |x|
  rcases le_or_gt 0 x with h | h
  · rw [Rat.abs_of_nonneg h, abs_of_nonneg h]
  · rw [Rat.abs_of_nonpos h.le, abs_of_neg h]

theorem mulPow_exact (m x : ℚ) (k : ℕ) : mulPow m x k = m * x ^ k := by
  induction k using Nat.strong_induction_on generalizing m x with
  | _ k ih =>
    -- the lowest bit goes into the factor, the others into the power of the square
    have hlow : m * x ^ k = (if k % 2 = 1 then m * x else m) * (x * x) ^ (k / 2) := by
      conv_lhs => rw [← Nat.mod_add_div k 2, pow_add, pow_mul, pow_two, ← mul_assoc]
      rcases Nat.mod_two_eq_zero_or_one k with h | h <;> simp [h]
    rw [mulPow, hlow]
    split
    · next h => rw [h, pow_zero, mul_one]
    · next h => exact ih (k / 2) (by omega) _ _

theorem zpow_exact (k : ℤ) : Scalar.pow x k = x ^ k := by
  have hone : (1.0 : ℚ) = 1 := by norm_num
  rw [Scalar.pow, mulPow_exact, hone, one_mul]
  split_ifs with hk
  · rw [one_div, ← zpow_natCast, ← zpow_neg, Int.ofNat_natAbs_of_nonpos hk.le, neg_neg]
  · rw [← zpow_natCast, Int.natAbs_of_nonneg (not_lt.1 hk)]

theorem pow_exact (k : ℕ) : Scalar.pow x k = x ^ k :=
  (zpow_exact k).trans (zpow_natCast x k)

end Scalar

theorem Integrand.ofFunction_exact (F : ℚ → ℚ) (x : ℚ) : ofFunction F x = .ok (F x) := rfl

/-! ## Inner products -/

theorem Lanes.total_addBlocks (l : Lanes ℚ) (ps : List ℚ) :
    (l.addBlocks ps).1.total + (l.addBlocks ps).2.sum = l.total + ps.sum := by
  fun_induction Lanes.addBlocks l ps with
  | case1 l p0 p1 p2 p3 p4 p5 p6 p7 rest ih =>
    rw [ih]
    simp only [Lanes.total, List.sum_cons]
    ring
  | case2 l rest => rfl

theorem dot_exact (ws ys : List ℚ) : dot ws ys = (List.zipWith (· * ·) ws ys).sum := by
  have hzero : (Lanes.zero : Lanes ℚ).total = 0 := by norm_num [Lanes.zero, Lanes.total]
  have hfold (xs : List ℚ) (s : ℚ) : xs.foldl (· + ·) s = s + xs.sum := by
    induction xs generalizing s with
    | nil => simp
    | cons x xs ih => rw [List.foldl_cons, ih, List.sum_cons, add_assoc]
  have htotal := Lanes.zero.total_addBlocks (List.zipWith (· * ·) ws ys)
  rw [hzero, zero_add] at htotal
  exact (hfold _ _).trans htotal

theorem dot_range (w y : ℕ → ℚ) (k : ℕ) :
    dot ((List.range k).map w) ((List.range k).map y) = ∑ i ∈ Finset.range k, w i * y i := by
  rw [dot_exact, List.zipWith_map, List.zipWith_self]
  rfl

/-! ## Parameters and values -/

section Parameters

variable {a b v : ℚ} {n : ℕ} {rule : Rule}

theorem checkBounds_exact (hab : a < b) : checkBounds a b = .ok () :=
  checkBounds_eq_ok.2 ⟨rfl, rfl, hab, rfl⟩

theorem Rule.check_exact (hab : a < b) (hn : rule.minPanels ≤ n) : rule.check a b n = .ok () := by
  have hpos : 1 ≤ rule.minPanels := by
    cases rule with
    | fixed r => cases r <;> decide
    | monteCarlo => decide
  exact check_eq_ok.2 ⟨checkBounds_exact hab, by omega, hn⟩

theorem Rule.finite_exact : rule.finite v = .ok v :=
  finite_eq_ok.2 ⟨rfl, rfl⟩

end Parameters

end Quadrature
