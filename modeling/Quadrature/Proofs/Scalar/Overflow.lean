import Quadrature.Proofs.Scalar.Arithmetic

/-!
# Doubles that may have overflowed

An operation does not make a finite double of one that is not (`isFinite_of_add`,
`isFinite_of_sub`, `isFinite_of_mul`, `isFinite_of_div`). What is at least some number, an infinity included,
stays so under products and quotients (`AtLeast`).
-/

namespace Quadrature

open Float.Model Float.Model.UnpackedFloat

section Results

variable {x y : Float}

theorem isFinite_of_unpack_pack {u : UnpackedFloat}
    (h : (Float.Model.pack u).unpack.isFinite = true) : u.isFinite = true := by
  cases u with
  | notANumber => exact h
  | infinity s => rwa [unpack_pack_infinity] at h
  | zero | finite => rfl

theorem isFinite_of_unpacked_add {u v : UnpackedFloat}
    (h : (UnpackedFloat.add Format.binary64 u v).isFinite = true) :
    u.isFinite = true ∧ v.isFinite = true := by
  cases u with
  | notANumber => cases v <;> exact absurd h Bool.false_ne_true
  | infinity s =>
    cases v with
    | infinity s' => cases s <;> cases s' <;> exact absurd h Bool.false_ne_true
    | notANumber | zero | finite => exact absurd h Bool.false_ne_true
  | zero | finite =>
    cases v with
    | notANumber | infinity => exact absurd h Bool.false_ne_true
    | zero | finite => exact ⟨rfl, rfl⟩

theorem isFinite_of_add (h : (x + y).isFinite = true) : x.isFinite = true ∧ y.isFinite = true :=
  isFinite_of_unpacked_add (isFinite_of_unpack_pack h)

theorem isFinite_of_sub (h : (x - y).isFinite = true) : x.isFinite = true ∧ y.isFinite = true := by
  have h : (UnpackedFloat.sub Format.binary64 x.toModel.unpack y.toModel.unpack).isFinite = true :=
    isFinite_of_unpack_pack h
  rw [sub_eq_add_neg_unpacked] at h
  obtain ⟨hx, hy⟩ := isFinite_of_unpacked_add h
  refine ⟨hx, ?_⟩
  show y.toModel.unpack.isFinite = true
  generalize y.toModel.unpack = v at hy ⊢
  cases v <;> exact hy

theorem isFinite_of_mul (h : (x * y).isFinite = true) : x.isFinite = true ∧ y.isFinite = true := by
  have h : (UnpackedFloat.mul Format.binary64 x.toModel.unpack y.toModel.unpack).isFinite = true :=
    isFinite_of_unpack_pack h
  show x.toModel.unpack.isFinite = true ∧ y.toModel.unpack.isFinite = true
  generalize x.toModel.unpack = u at h ⊢
  generalize y.toModel.unpack = v at h ⊢
  cases u with
  | notANumber | infinity => cases v <;> exact absurd h Bool.false_ne_true
  | zero | finite =>
    cases v with
    | notANumber | infinity => exact absurd h Bool.false_ne_true
    | zero | finite => exact ⟨rfl, rfl⟩

/-- A finite quotient may have an infinite divisor. -/
theorem isFinite_of_div (h : (x / y).isFinite = true) : x.isFinite = true := by
  have h : (UnpackedFloat.div Format.binary64 x.toModel.unpack y.toModel.unpack).isFinite = true :=
    isFinite_of_unpack_pack h
  show x.toModel.unpack.isFinite = true
  generalize x.toModel.unpack = u at h ⊢
  generalize y.toModel.unpack = v at h ⊢
  cases u with
  | notANumber | infinity => cases v <;> exact absurd h Bool.false_ne_true
  | zero | finite => rfl

theorem isFinite_abs_iff : x.abs.isFinite = true ↔ x.isFinite = true := by
  refine ⟨fun h => ?_, isFinite_abs⟩
  have h : x.toModel.unpack.abs.isFinite = true := isFinite_of_unpack_pack h
  show x.toModel.unpack.isFinite = true
  generalize x.toModel.unpack = u at h ⊢
  cases u <;> exact h

theorem isFinite_of_sqrt (h : x.sqrt.isFinite = true) : x.isFinite = true := by
  have h : (UnpackedFloat.sqrt Format.binary64 x.toModel.unpack).isFinite = true :=
    isFinite_of_unpack_pack h
  show x.toModel.unpack.isFinite = true
  generalize x.toModel.unpack = u at h ⊢
  cases u with
  | notANumber => exact h
  | infinity s => cases s <;> exact absurd h Bool.false_ne_true
  | zero | finite => rfl

theorem value_pack_nonneg {u : UnpackedFloat} (h : Unsigned u) :
    0 ≤ Scalar.value (Float.ofModel (.pack u)) := by
  show 0 ≤ (Binary64.ofFloat (.ofModel (.pack u))).toRat
  rw [Binary64.toRat, negative_pack h, if_neg Bool.false_ne_true]
  positivity

theorem unsigned_roundWithAccuracy (m : ℕ) (e : ℤ) (a : Accuracy) :
    Unsigned (roundWithAccuracy Format.binary64 .positive m e a) := by
  unfold roundWithAccuracy
  dsimp only
  split <;> rfl

theorem value_sqrt_nonneg (h : x.sqrt.isFinite = true) : 0 ≤ Scalar.value x.sqrt := by
  have hsqrt : x.sqrt = .ofModel (.pack (UnpackedFloat.sqrt Format.binary64 x.toModel.unpack)) := rfl
  have hfin : (UnpackedFloat.sqrt Format.binary64 x.toModel.unpack).isFinite = true :=
    isFinite_of_unpack_pack h
  rw [hsqrt]
  generalize x.toModel.unpack = u at hfin ⊢
  cases u with
  | notANumber => exact absurd hfin Bool.false_ne_true
  | infinity s => cases s <;> exact absurd hfin Bool.false_ne_true
  | zero s => exact (value_zero (x := .ofModel (.pack (.zero s))) unpack_pack_zero).2.ge
  | finite s m e hm =>
    cases s with
    | negative => exact absurd hfin Bool.false_ne_true
    | positive => exact value_pack_nonneg (unsigned_roundWithAccuracy _ _ _)

end Results

/-! ## Lower bounds -/

/-- At least `k`, or infinite. -/
def AtLeast (k : ℚ) (x : Float) : Prop :=
  x.toModel.unpack = .infinity .positive ∨ x.isFinite = true ∧ k ≤ Scalar.value x

section LowerBounds

variable {x y : Float} {k q : ℚ}

theorem atLeast_of_le (hy : y.isFinite = true) (h : y ≤ x) : AtLeast (Scalar.value y) x := by
  by_cases hx : x.isFinite = true
  · exact .inr ⟨hx, (le_iff hy hx).1 h⟩
  have hx : ¬ x.toModel.unpack.isFinite = true := hx
  have hy : y.toModel.unpack.isFinite = true := hy
  rw [le_iff_unpack] at h
  left
  generalize y.toModel.unpack = v at h hy
  generalize x.toModel.unpack = u at h hx
  cases u with
  | zero | finite => exact absurd rfl hx
  | notANumber => cases v <;> exact absurd h Bool.false_ne_true
  | infinity s =>
    cases s with
    | positive => rfl
    | negative =>
      cases v with
      | notANumber | infinity => cases hy
      | zero => exact absurd h Bool.false_ne_true
      | finite s' => cases s' <;> exact absurd h Bool.false_ne_true

theorem AtLeast.le (h : AtLeast k x) (hy : y.isFinite = true) (hyk : Scalar.value y ≤ k) :
    y ≤ x := by
  rcases h with h | ⟨hx, hk⟩
  · exact le_infinity hy h
  · exact (le_iff hy hx).2 (hyk.trans hk)

theorem atLeast_zero_iff : AtLeast 0 x ↔ 0.0 ≤ x := by
  obtain ⟨hzero, hvalue⟩ := value_literal_zero
  constructor
  · exact fun h => h.le hzero hvalue.le
  · exact fun h => hvalue ▸ atLeast_of_le hzero h

theorem Rounds.atLeast (h : Rounds q x) (hk : Representable k) (hlt : |k| < overflow)
    (hkq : k ≤ q) : AtLeast k x := by
  obtain ⟨y, hy, rfl⟩ := exists_double hk hlt
  exact atLeast_of_le hy (h.below y hy hkq)

theorem atLeast_zero_abs (h : x.isNaN = false) : AtLeast 0 x.abs := by
  by_cases hx : x.isFinite = true
  · obtain ⟨hfin, hvalue⟩ := value_abs hx
    exact .inr ⟨hfin, hvalue ▸ abs_nonneg _⟩
  · left
    have h : x.toModel.unpack.isNaN = false := h
    have hx : ¬ x.toModel.unpack.isFinite = true := hx
    show (Float.Model.pack x.toModel.unpack.abs).unpack = _
    generalize x.toModel.unpack = u at h hx
    cases u with
    | notANumber => cases h
    | infinity => exact unpack_pack_infinity
    | zero | finite => exact absurd rfl hx

theorem unpack_of_pos (hx : x.isFinite = true) (h : 0 < Scalar.value x) :
    ∃ m e hm, x.toModel.unpack = .finite .positive m e hm := by
  obtain ⟨s, hu⟩ | ⟨s, m, e, hm, hu, -⟩ := exists_field hx
  · exact absurd (value_zero hu).2 h.ne'
  · cases s with
    | positive => exact ⟨m, e, hm, hu⟩
    | negative =>
      rw [(value_finite hu).2, signed, neg_pos] at h
      exact absurd h (not_lt.2 (by positivity))

/-- A factor of one or more keeps a lower bound. It may be infinite unless the other factor
may be zero. -/
theorem AtLeast.mul (hx : AtLeast k x) (hy : AtLeast 1 y) (hk : 0 ≤ k)
    (hzero : 0 < k ∨ y.isFinite = true) (hrep : Representable k) (hlt : k < overflow) :
    AtLeast k (x * y) := by
  have hmul : (x * y).toModel.unpack = (Float.Model.pack
      (UnpackedFloat.mul Format.binary64 x.toModel.unpack y.toModel.unpack)).unpack := rfl
  rcases hx with hx | ⟨hx, hkx⟩ <;> rcases hy with hy | ⟨hy, hy1⟩
  · left
    rw [hmul, hx, hy]
    exact unpack_pack_infinity
  · obtain ⟨m, e, hm, hu⟩ := unpack_of_pos hy (zero_lt_one.trans_le hy1)
    left
    rw [hmul, hx, hu]
    exact unpack_pack_infinity
  · have hinfinite : y.isFinite ≠ true := by
      show y.toModel.unpack.isFinite ≠ true
      rw [hy]
      exact Bool.false_ne_true
    obtain ⟨m, e, hm, hu⟩ := unpack_of_pos hx ((hzero.resolve_right hinfinite).trans_le hkx)
    left
    rw [hmul, hu, hy]
    exact unpack_pack_infinity
  · have hnonneg : 0 ≤ Scalar.value x := hk.trans hkx
    refine (rounds_mul hx hy).atLeast hrep (by rwa [abs_of_nonneg hk]) ?_
    calc k ≤ Scalar.value x * 1 := by rwa [mul_one]
      _ ≤ Scalar.value x * Scalar.value y := by gcongr

theorem one_lt_overflow : 1 < overflow :=
  zpow_zero (2 : ℚ) ▸ zpow_lt_overflow (by norm_num)

theorem representable_one : Representable 1 :=
  zpow_zero (2 : ℚ) ▸ representable_zpow (by norm_num)

theorem AtLeast.mulPow {m : Float} {n : ℕ} (hm : AtLeast 1 m) (hx : AtLeast 1 x) :
    AtLeast 1 (Scalar.mulPow m x n) := by
  have hmul {x y : Float} (hx : AtLeast 1 x) (hy : AtLeast 1 y) : AtLeast 1 (x * y) :=
    hx.mul hy zero_le_one (.inl zero_lt_one) representable_one one_lt_overflow
  induction n using Nat.strongRecOn generalizing m x with
  | ind n ih =>
    have hbit : AtLeast 1 (if n % 2 = 1 then m * x else m) := by
      split
      · exact hmul hm hx
      · exact hm
    rw [Scalar.mulPow]
    split
    · exact hbit
    · exact ih (n / 2) (by omega) hbit (hmul hx hx)

theorem AtLeast.div (hx : AtLeast 0 x) (hy : y.isFinite = true) (hpos : 0 < Scalar.value y) :
    AtLeast 0 (x / y) := by
  rcases hx with hx | ⟨hx, hnonneg⟩
  · obtain ⟨m, e, hm, hu⟩ := unpack_of_pos hy hpos
    left
    show (Float.Model.pack
      (UnpackedFloat.div Format.binary64 x.toModel.unpack y.toModel.unpack)).unpack = _
    rw [hx, hu]
    exact unpack_pack_infinity
  · exact (rounds_div hx hy hpos.ne').atLeast representable_zero (by simpa using overflow_pos)
      (by positivity)

/-- A quotient by eight or more is three powers of two away from an overflow. -/
theorem AtLeast.div_le (hy : AtLeast 8 y) (hx : x.isFinite = true) :
    (x / y).isFinite = true ∧ |Scalar.value (x / y)| ≤ 2 ^ (1021 : ℤ) := by
  rcases hy with hy | ⟨hy, hy8⟩
  · have hzero : ∃ s, (x / y).toModel.unpack = .zero s := by
      have hdiv : (x / y).toModel.unpack = (Float.Model.pack
        (UnpackedFloat.div Format.binary64 x.toModel.unpack y.toModel.unpack)).unpack := rfl
      rw [hdiv, hy]
      obtain ⟨s, hu⟩ | ⟨s, m, e, hm, hu, -⟩ := exists_field hx <;> rw [hu] <;>
        exact ⟨_, unpack_pack_zero⟩
    obtain ⟨s, hu⟩ := hzero
    obtain ⟨hfin, hvalue⟩ := value_zero hu
    refine ⟨hfin, ?_⟩
    rw [hvalue, abs_zero]
    positivity
  · have hround := rounds_div hx hy (by linarith)
    have hrep : Representable (2 ^ (1021 : ℤ)) := representable_zpow (by norm_num)
    have hquotient : |Scalar.value x / Scalar.value y| ≤ 2 ^ (1021 : ℤ) := by
      rw [abs_div, abs_of_pos (by linarith : 0 < Scalar.value y), div_le_iff₀ (by linarith)]
      calc |Scalar.value x| ≤ 2 ^ 52 * 2 ^ (972 : ℤ) :=
            (abs_value_lt hx).le.trans overflow_bounds.2
        _ = 2 ^ (1021 : ℤ) * 8 := by
            rw [← zpow_natCast, ← zpow_add₀ two_ne_zero, show (8 : ℚ) = 2 ^ (3 : ℤ) by norm_num,
              ← zpow_add₀ two_ne_zero]
            norm_num
        _ ≤ 2 ^ (1021 : ℤ) * Scalar.value y := by gcongr
    have hfin : (x / y).isFinite = true :=
      hround.isFinite_iff.2 (hquotient.trans_lt (zpow_lt_overflow (by norm_num)))
    obtain ⟨hlow, hhigh⟩ := abs_le.1 hquotient
    exact ⟨hfin, abs_le.2 ⟨hround.representable_le hfin hrep.neg hlow,
      hround.le_representable hfin hrep hhigh⟩⟩

end LowerBounds

end Quadrature
