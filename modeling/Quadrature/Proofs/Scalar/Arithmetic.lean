import Mathlib
import Quadrature.Proofs.Scalar.Rounding

/-!
# The arithmetic of doubles

Sums, differences, products and quotients of finite doubles round the exact ones
(`rounds_add`, `rounds_sub`, `rounds_mul`, `rounds_div`). Whole numbers are rounded like them
(`rounds_natCast`), those of at most 53 bits not at all (`value_natCast`). One is neutral for
every double (`one_mul_double`), so the second power by repeated squaring is the square
(`pow_two_double`).
-/

namespace Quadrature

open Float.Model Float.Model.UnpackedFloat

section Arithmetic

variable {x y : Float} {s : Sign} {m m' : ℕ} {e e' : ℤ}

/-! ## Signs -/

theorem cast_apply (s : Sign) (m : ℕ) : ((s.apply m : ℤ) : ℚ) = signed s m := by
  cases s <;> simp [Sign.apply, signed]

theorem signed_mul (s : Sign) (p q : ℚ) : signed s (p * q) = signed s p * q := by
  cases s <;> simp [signed]

theorem signed_mul_signed (s s' : Sign) (p q : ℚ) :
    signed s p * signed s' q = signed (s * s') (p * q) := by
  cases s <;> cases s' <;> simp only [signed, neg_mul, mul_neg, neg_neg]

theorem signed_div_signed (s s' : Sign) (p q : ℚ) :
    signed s p / signed s' q = signed (s / s') (p / q) := by
  cases s <;> cases s' <;> simp only [signed, neg_div, div_neg, neg_neg] <;> rfl

theorem signed_neg (s : Sign) (q : ℚ) : signed (-s) q = -signed s q := by
  cases s
  · exact (neg_neg q).symm
  · rfl

theorem unpack_neg (hy : y.isFinite = true) : (-y).toModel.unpack = y.toModel.unpack.neg := by
  have hneg : (-y).toModel = .pack y.toModel.unpack.neg := rfl
  rw [hneg]
  obtain ⟨s, hu⟩ | ⟨s, m, e, hm, hu, hf⟩ := exists_field hy
  · rw [hu]
    exact unpack_pack_zero
  · rw [hu]
    exact unpack_pack_finite hf

theorem value_neg (hy : y.isFinite = true) :
    (-y).isFinite = true ∧ Scalar.value (-y) = -Scalar.value y := by
  have hneg := unpack_neg hy
  obtain ⟨s, hu⟩ | ⟨s, m, e, hm, hu, hf⟩ := exists_field hy
  · rw [hu] at hneg
    have hzero := value_zero (x := -y) hneg
    rwa [(value_zero hu).2, neg_zero]
  · rw [hu] at hneg
    have hfin := value_finite (x := -y) hneg
    rwa [signed_neg, ← (value_finite hu).2] at hfin

theorem value_abs (hy : y.isFinite = true) :
    y.abs.isFinite = true ∧ Scalar.value y.abs = |Scalar.value y| := by
  obtain ⟨s, hu⟩ | ⟨s, m, e, hm, hu, hf⟩ := exists_field hy
  · rw [abs_eq_zero hu, (value_zero hu).2, abs_zero]
    exact value_zero (x := .ofModel (.pack (.zero .positive))) unpack_pack_zero
  · rw [abs_eq_finite hu, (value_finite hu).2, abs_signed s (by positivity)]
    exact value_finite (x := .ofModel (.pack (.finite .positive m e hm))) (unpack_pack_finite hf)

/-! ## Sums -/

theorem rounds_zero (s : Sign) : Rounds 0 (.ofModel (.pack (.zero s))) := by
  obtain ⟨hx, hv⟩ := value_zero (x := .ofModel (.pack (.zero s))) unpack_pack_zero
  exact hv ▸ rounds_value hx

theorem rounds_normalize (n : ℤ) (e : ℤ) (s : Sign) :
    Rounds (n * 2 ^ e) (.ofModel (.pack (UnpackedFloat.normalize Format.binary64 n e s))) := by
  rcases lt_trichotomy n 0 with hn | rfl | hn
  · obtain ⟨M, E, h, hround⟩ :=
      exists_roundsTo_round .negative (show 0 < (-n).toNat by omega) e
    have hcast : (n : ℚ) * 2 ^ e = signed .negative ((-n).toNat * 2 ^ e) := by
      have htoNat : ((-n).toNat : ℚ) = -n := by exact_mod_cast Int.toNat_of_nonneg (by omega)
      rw [htoNat, signed]
      ring
    rw [UnpackedFloat.normalize, compare_lt_iff_lt.2 hn, hcast]
    dsimp only
    rw [hround]
    exact h.rounds (by positivity) .negative
  · rw [UnpackedFloat.normalize, compare_eq_iff_eq.2 rfl, Int.cast_zero, zero_mul]
    exact rounds_zero s
  · obtain ⟨M, E, h, hround⟩ := exists_roundsTo_round .positive (show 0 < n.toNat by omega) e
    have hcast : (n : ℚ) * 2 ^ e = signed .positive (n.toNat * 2 ^ e) := by
      have htoNat : (n.toNat : ℚ) = n := by exact_mod_cast Int.toNat_of_nonneg (by omega)
      rw [htoNat, signed]
    rw [UnpackedFloat.normalize, compare_gt_iff_gt.2 hn, hcast]
    dsimp only
    rw [hround]
    exact h.rounds (by positivity) .positive

/-- A signed mantissa keeps its number at a smaller exponent. -/
theorem signed_decreased (s : Sign) (m : ℕ) {e t : ℤ} (h : t ≤ e) :
    ((s.apply ((decreaseExponent m e t).1 : ℕ) : ℤ) : ℚ) * 2 ^ t = signed s (m * 2 ^ e) := by
  obtain ⟨j, rfl⟩ := Int.le.dest h
  have hj : (t + j - t).toNat = j := by omega
  rw [decreaseExponent, hj, cast_apply, Nat.shiftLeft_eq, zpow_add₀ two_ne_zero, zpow_natCast,
    ← signed_mul]
  push_cast
  congr 1
  ring

theorem eq_pack {u : UnpackedFloat} (hu : x.toModel.unpack = u) : x = .ofModel (.pack u) :=
  float_eq (hu ▸ (pack_unpack x).symm)

theorem rounds_add (hx : x.isFinite = true) (hy : y.isFinite = true) :
    Rounds (Scalar.value x + Scalar.value y) (x + y) := by
  have hadd : x + y =
    .ofModel (.pack (UnpackedFloat.add Format.binary64 x.toModel.unpack y.toModel.unpack)) := rfl
  obtain ⟨s, hu⟩ | ⟨s, m, e, hm, hu, hf⟩ := exists_field hx
  · obtain ⟨s', hv⟩ | ⟨s', m', e', hm', hv, hf'⟩ := exists_field hy
    · rw [hadd, (value_zero hu).2, (value_zero hv).2, add_zero, hu, hv]
      cases s <;> cases s' <;> exact rounds_zero _
    · have hsame : x + y = y := by
        rw [hadd, hu, hv]
        exact (eq_pack hv).symm
      rw [hsame, (value_zero hu).2, zero_add]
      exact rounds_value hy
  · obtain ⟨s', hv⟩ | ⟨s', m', e', hm', hv, hf'⟩ := exists_field hy
    · have hsame : x + y = x := by
        rw [hadd, hu, hv]
        exact (eq_pack hu).symm
      rw [hsame, (value_zero hv).2, add_zero]
      exact rounds_value hx
    · rw [hadd, (value_finite hu).2, (value_finite hv).2, hu, hv,
        ← signed_decreased s m (min_le_left e e'), ← signed_decreased s' m' (min_le_right e e'),
        ← add_mul, ← Int.cast_add]
      exact rounds_normalize _ _ _

theorem sub_eq_add_neg_unpacked (u v : UnpackedFloat) :
    UnpackedFloat.sub Format.binary64 u v = UnpackedFloat.add Format.binary64 u v.neg := by
  cases u with
  | notANumber => rfl
  | infinity s | zero s => cases v <;> rfl
  | finite s m e hm =>
    cases v with
    | notANumber | infinity | zero => rfl
    | finite s' m' e' hm' =>
      have hneg (n : ℤ) : (-s').apply n = -s'.apply n := by
        cases s' with
        | positive => rfl
        | negative => exact (neg_neg n).symm
      show UnpackedFloat.normalize _ (_ - s'.apply _) _ _ =
        UnpackedFloat.normalize _ (_ + (-s').apply _) _ _
      rw [hneg, sub_eq_add_neg]

theorem rounds_sub (hx : x.isFinite = true) (hy : y.isFinite = true) :
    Rounds (Scalar.value x - Scalar.value y) (x - y) := by
  obtain ⟨hneg, hvalue⟩ := value_neg hy
  have hsub : x - y = x + -y := by
    show Float.ofModel (.pack (UnpackedFloat.sub _ _ _)) = .ofModel (.pack (UnpackedFloat.add _ _ _))
    rw [sub_eq_add_neg_unpacked, unpack_neg hy]
  rw [hsub, sub_eq_add_neg, ← hvalue]
  exact rounds_add hx hneg

/-! ## Products and quotients -/

theorem rounds_mul (hx : x.isFinite = true) (hy : y.isFinite = true) :
    Rounds (Scalar.value x * Scalar.value y) (x * y) := by
  have hmul : x * y =
    .ofModel (.pack (UnpackedFloat.mul Format.binary64 x.toModel.unpack y.toModel.unpack)) := rfl
  rw [hmul]
  obtain ⟨s, hu⟩ | ⟨s, m, e, hm, hu, hf⟩ := exists_field hx
  · rw [(value_zero hu).2, zero_mul, hu]
    obtain ⟨s', hv⟩ | ⟨s', m', e', hm', hv, hf'⟩ := exists_field hy
    · rw [hv]
      exact rounds_zero _
    · rw [hv]
      exact rounds_zero _
  obtain ⟨s', hv⟩ | ⟨s', m', e', hm', hv, hf'⟩ := exists_field hy
  · rw [(value_zero hv).2, mul_zero, hu, hv]
    exact rounds_zero _
  have htarget : e + e' ≤ Format.binary64.targetExponent (totalExponent (m * m') (e + e')) := by
    have hleast := hf.least
    have hleast' := hf'.least
    have hbits (h : 2 ^ 52 ≤ m * m') : 52 ≤ (m * m').log2 :=
      (Nat.le_log2 (Nat.mul_pos hm hm').ne').2 h
    have hlead : 2 ^ 52 ≤ m * m' ∨ e = -1074 ∧ e' = -1074 := by
      rcases hf.leading with h | h
      · exact .inl (h.trans (Nat.le_mul_of_pos_right m hm'))
      · exact hf'.leading.imp (fun h' => h'.trans (Nat.le_mul_of_pos_left m' hm)) fun h' => ⟨h, h'⟩
    rw [targetExponent_eq, totalExponent]
    rcases hlead with h | ⟨rfl, rfl⟩
    · have := hbits h
      omega
    · omega
  obtain ⟨M, E, h, hround⟩ :=
    exists_roundsTo (q := (m * m' : ℕ)) (a := .exact) (s * s') rfl htarget
  have hproduct : signed s ((m : ℚ) * 2 ^ e) * signed s' (m' * 2 ^ e') =
      signed (s * s') ((m * m' : ℕ) * 2 ^ (e + e')) := by
    rw [signed_mul_signed, zpow_add₀ two_ne_zero]
    push_cast
    congr 1
    ring
  rw [(value_finite hu).2, (value_finite hv).2, hu, hv, hproduct, UnpackedFloat.mul, hround]
  exact h.rounds (by positivity) (s * s')

/-- A quotient and the accuracy of its remainder approximate the fraction. -/
theorem approximates_fraction (n : ℕ) {d : ℕ} (hd : 0 < d) :
    Approximates ((n : ℚ) / d) (.ofMantissaAndAccuracy (n / d) (accuracyOfFraction (n % d) d)) := by
  have hpos : (0 : ℚ) < d := by exact_mod_cast hd
  have hsplit : (n : ℚ) / d = (n / d : ℕ) + (n % d : ℕ) / d := by
    have hmod : (n : ℚ) = (d * (n / d) + n % d : ℕ) := by rw [Nat.div_add_mod]
    rw [hmod]
    push_cast
    field_simp
  have hlt : ((n % d : ℕ) : ℚ) / d < 1 := by
    rw [div_lt_one hpos]
    exact_mod_cast Nat.mod_lt n hd
  rw [hsplit, accuracyOfFraction]
  split
  · next hzero =>
    rw [hzero, Nat.cast_zero, zero_div, add_zero]
    rfl
  · next hrem =>
    have hrem : (0 : ℚ) < (n % d : ℕ) / d := by
      have : (0 : ℚ) < (n % d : ℕ) := by exact_mod_cast Nat.pos_of_ne_zero hrem
      positivity
    have hhalf (c : ℚ) : c < (d : ℚ) / 2 ↔ 2 * c < d := by constructor <;> intro h <;> linarith
    rcases lt_trichotomy (2 * (n % d)) d with h | h | h
    · have h' : ((n % d : ℕ) : ℚ) / d < 1 / 2 := by
        rw [div_lt_iff₀ hpos]
        have : (2 : ℚ) * (n % d : ℕ) < d := by exact_mod_cast h
        linarith
      rw [compare_lt_iff_lt.2 h]
      exact ⟨lt_add_of_pos_right _ hrem, (add_lt_add_iff_left _).2 h'⟩
    · have h' : ((n % d : ℕ) : ℚ) / d = 1 / 2 := by
        rw [div_eq_iff hpos.ne']
        have : (2 : ℚ) * (n % d : ℕ) = d := by exact_mod_cast h
        linarith
      rw [compare_eq_iff_eq.2 h, h']
      rfl
    · have h' : 1 / 2 < ((n % d : ℕ) : ℚ) / d := by
        rw [lt_div_iff₀ hpos]
        have : (d : ℚ) < 2 * (n % d : ℕ) := by exact_mod_cast h
        linarith
      rw [compare_gt_iff_gt.2 h]
      exact ⟨(add_lt_add_iff_left _).2 h', (add_lt_add_iff_left _).2 hlt⟩

theorem rounds_div (hx : x.isFinite = true) (hy : y.isFinite = true)
    (hne : Scalar.value y ≠ 0) : Rounds (Scalar.value x / Scalar.value y) (x / y) := by
  have hdiv : x / y =
    .ofModel (.pack (UnpackedFloat.div Format.binary64 x.toModel.unpack y.toModel.unpack)) := rfl
  rw [hdiv]
  obtain ⟨s', hv⟩ | ⟨s', m', e', hm', hv, hf'⟩ := exists_field hy
  · exact absurd (value_zero hv).2 hne
  obtain ⟨s, hu⟩ | ⟨s, m, e, hm, hu, hf⟩ := exists_field hx
  · rw [(value_zero hu).2, zero_div, hu, hv]
    exact rounds_zero _
  obtain ⟨t, ht⟩ : ∃ t, t = min (e - e') (Format.binary64.targetExponent
      (totalExponent m e - totalExponent m' e')) := ⟨_, rfl⟩
  obtain ⟨j, hj⟩ := Int.le.dest (show t ≤ e - e' by omega)
  have hcore : divCore Format.binary64 m e m' e' =
      (m * 2 ^ j / m', t, accuracyOfFraction (m * 2 ^ j % m') m') := by
    have hj' : (e - e' - t).toNat = j := by omega
    rw [divCore]
    simp only [← ht, hj', Nat.shiftLeft_eq]
  -- enough bits are added for the quotient to have its leading bit, or it is subnormal
  have htarget : t ≤ Format.binary64.targetExponent (totalExponent (m * 2 ^ j / m') t) := by
    rw [targetExponent_eq, totalExponent] at ht ⊢
    by_cases hsmall : t ≤ -1074
    · omega
    · rw [totalExponent] at ht
      have hj53 : 53 + m'.log2 ≤ m.log2 + j := by omega
      have hlead : 2 ^ 52 ≤ m * 2 ^ j / m' := by
        rw [Nat.le_div_iff_mul_le hm']
        calc 2 ^ 52 * m' ≤ 2 ^ 52 * 2 ^ (m'.log2 + 1) := by
              gcongr
              exact Nat.lt_log2_self.le
          _ ≤ 2 ^ (m.log2 + j) := by
              rw [← pow_add]
              exact Nat.pow_le_pow_right two_pos (by omega)
          _ = 2 ^ m.log2 * 2 ^ j := pow_add _ _ _
          _ ≤ m * 2 ^ j := by
              gcongr
              exact Nat.log2_self_le hm.ne'
      have := (Nat.le_log2 (by omega)).2 hlead
      omega
  obtain ⟨M, E, h, hround⟩ :=
    exists_roundsTo (s / s') (approximates_fraction (m * 2 ^ j) hm') htarget
  have hquotient : signed s ((m : ℚ) * 2 ^ e) / signed s' (m' * 2 ^ e') =
      signed (s / s') ((m * 2 ^ j : ℕ) / m' * 2 ^ t) := by
    have ht' : t = e - e' - j := by omega
    rw [signed_div_signed, ht', zpow_sub₀ two_ne_zero, zpow_sub₀ two_ne_zero, zpow_natCast]
    push_cast
    congr 1
    field_simp
  rw [(value_finite hu).2, (value_finite hv).2, hu, hv, hquotient, UnpackedFloat.div]
  simp only [hcore, hround]
  exact h.rounds (by positivity) (s / s')

/-! ## Whole numbers -/

theorem value_natCast {n : ℕ} (hn : n < 2 ^ 53) :
    (n : Float).isFinite = true ∧ Scalar.value (n : Float) = n := by
  have hrep := representable_natCast hn
  have hlt : |(n : ℚ)| < overflow := by
    rw [Nat.abs_cast]
    calc (n : ℚ) < 2 ^ (53 : ℤ) := by exact_mod_cast hn
      _ ≤ overflow := zpow_le_overflow (by norm_num)
  have hint : Rounds n n.toUInt64.toFloat := by
    have htoNat : n.toUInt64.toNat = n := by
      rw [Nat.toUInt64, UInt64.toNat_ofNat']
      omega
    have hmodel : n.toUInt64.toFloat = .ofModel (.ofNat n.toUInt64.toNat) := rfl
    rw [hmodel, htoNat]
    have hround := rounds_normalize n 0 .positive
    rwa [zpow_zero, mul_one, Int.cast_natCast] at hround
  obtain ⟨hx, hv⟩ := hint.exact hrep hlt
  -- the digits of a literal are multiplied by the power of ten after them
  have hcast : (n : Float) = n.toUInt64.toFloat * Float.exactlyRepresentablePowersOfTen[0] := by
    show Float.ofScientific n false 0 = _
    rw [Float.ofScientific, dif_pos ⟨hn, by norm_num⟩]
    rfl
  have hone : Float.exactlyRepresentablePowersOfTen[0].toModel.unpack =
      .finite .positive (2 ^ 52) (-52) (by norm_num) := by rfl
  obtain ⟨hfin, hvalue⟩ := value_finite hone
  have hproduct := rounds_mul hx hfin
  rw [hv, hvalue, ← hcast] at hproduct
  have hunit : (n : ℚ) * signed .positive ((2 ^ 52 : ℕ) * 2 ^ (-52 : ℤ)) = n := by
    rw [signed]
    norm_num
  exact (hunit ▸ hproduct).exact hrep hlt

/-- The digits get as many zero bits as a mantissa has, which are then rounded away. -/
theorem rounds_ofScientific {n k : ℕ} (hpos : 0 < n) (hk : k ≤ 2 ^ 11) :
    Rounds ((n * 10 ^ k : ℕ) : ℚ) (.ofModel (.ofScientific n k)) := by
  have hcast : Float.ofModel (.ofScientific n k) = .ofModel (.pack (roundWithAccuracy
      Format.binary64 .positive (n <<< 53 * 10 ^ k) (-53 + 0) .exact)) := by
    show Float.ofModel (.pack (UnpackedFloat.ofScientific Format.binary64 n k)) = _
    have hgreatest : ¬ (k : ℤ) > 2 ^ Format.binary64.exponentBits := not_lt.2 (by exact_mod_cast hk)
    have hleast : ¬ (k : ℤ) < -(2 ^ Format.binary64.exponentBits + (n.log2 : ℤ)) := by
      have : (0 : ℤ) ≤ 2 ^ Format.binary64.exponentBits := by positivity
      omega
    rw [UnpackedFloat.ofScientific, dif_neg hpos.ne', if_neg hgreatest, if_neg hleast,
      if_pos (Int.natCast_nonneg k)]
    rfl
  have hten : 0 < n * 10 ^ k := Nat.mul_pos hpos (Nat.pow_pos (by decide))
  have hbits : n <<< 53 * 10 ^ k = n * 10 ^ k * 2 ^ 53 := by
    rw [Nat.shiftLeft_eq, Nat.mul_right_comm]
  have htarget : -53 + 0 ≤
      Format.binary64.targetExponent (totalExponent (n * 10 ^ k * 2 ^ 53) (-53 + 0)) := by
    rw [targetExponent_eq, totalExponent, log2_mul_two_pow hten]
    omega
  obtain ⟨M, E, h, hround⟩ :=
    exists_roundsTo (q := (n * 10 ^ k * 2 ^ 53 : ℕ)) (a := .exact) .positive rfl htarget
  have hnumber : ((n * 10 ^ k * 2 ^ 53 : ℕ) : ℚ) * 2 ^ (-53 + 0 : ℤ) =
      signed .positive ((n * 10 ^ k : ℕ) : ℚ) := by
    rw [signed, Nat.cast_mul _ (2 ^ 53), Nat.cast_pow, Nat.cast_two, mul_assoc]
    norm_num
  rw [hcast, hbits, hround]
  have hrounds := h.rounds (by positivity) .positive
  rw [hnumber] at hrounds
  exact hrounds

theorem rounds_natCast (n : ℕ) : Rounds n (n : Float) := by
  rcases lt_or_ge n (2 ^ 53) with hn | hn
  · obtain ⟨hx, hv⟩ := value_natCast hn
    exact hv ▸ rounds_value hx
  · have hcast : (n : Float) = .ofModel (.ofScientific n (0 : ℕ)) := by
      show Float.ofScientific n false 0 = _
      rw [Float.ofScientific, dif_neg (by omega)]
      rfl
    have hrounds := rounds_ofScientific (show 0 < n by omega) (Nat.zero_le (2 ^ 11))
    rwa [pow_zero, mul_one, ← hcast] at hrounds

theorem value_literal_zero : (0.0 : Float).isFinite = true ∧ Scalar.value (0.0 : Float) = 0 :=
  value_zero unpack_zero

theorem value_literal {q : ℚ} {hm : 0 < m} (hx : x.toModel.unpack = .finite .positive m e hm)
    (hq : (m : ℚ) * 2 ^ e = q) : x.isFinite = true ∧ Scalar.value x = q :=
  ⟨(value_finite hx).1, (value_finite hx).2.trans hq⟩

theorem value_literal_one : (1.0 : Float).isFinite = true ∧ Scalar.value (1.0 : Float) = 1 := by
  have hu : (1.0 : Float).toModel.unpack = .finite .positive (2 ^ 52) (-52) (by norm_num) := by rfl
  exact value_literal hu (by norm_num)

theorem value_literal_eight : (8.0 : Float).isFinite = true ∧ Scalar.value (8.0 : Float) = 8 := by
  have hu : (8.0 : Float).toModel.unpack = .finite .positive (2 ^ 52) (-49) (by norm_num) := by rfl
  exact value_literal hu (by norm_num)

theorem value_literal_hundred :
    (100.0 : Float).isFinite = true ∧ Scalar.value (100.0 : Float) = 100 := by
  have hu : (100.0 : Float).toModel.unpack = .finite .positive (25 * 2 ^ 48) (-46) (by norm_num) := by
    rfl
  exact value_literal hu (by norm_num)

theorem value_half {i : ℕ} (hi : i < 2 ^ 49) :
    ((i : Float) + 0.5).isFinite = true ∧ Scalar.value ((i : Float) + 0.5) = i + 1 / 2 := by
  obtain ⟨hif, hiv⟩ := value_natCast (n := i) (by omega)
  have hu : (0.5 : Float).toModel.unpack = .finite .positive (2 ^ 52) (-53) (by norm_num) := by rfl
  obtain ⟨hhf, hhv⟩ := value_literal hu (q := 1 / 2) (by norm_num)
  have hround := rounds_add hif hhf
  rw [hiv, hhv] at hround
  have hnonneg : (0 : ℚ) ≤ i + 1 / 2 := by positivity
  refine hround.exact ⟨2 * i + 1, -1, by omega, by norm_num, ?_⟩ ?_
  · rw [abs_of_nonneg hnonneg]
    push_cast
    norm_num
    ring
  · have hi : (i : ℚ) + 1 ≤ 2 ^ (49 : ℤ) := by exact_mod_cast hi
    rw [abs_of_nonneg hnonneg]
    calc (i : ℚ) + 1 / 2 < 2 ^ (49 : ℤ) := by linarith
      _ ≤ overflow := zpow_le_overflow (by norm_num)

/-- Comparing with zero tells the doubles of the number zero. -/
theorem beq_zero_iff_value (hx : x.isFinite = true) :
    (x == 0.0) = true ↔ Scalar.value x = 0 := by
  rw [beq_zero_iff]
  obtain ⟨s, hu⟩ | ⟨s, m, e, hm, hu, -⟩ := exists_field hx
  · exact ⟨fun _ => (value_zero hu).2, fun _ => ⟨s, hu⟩⟩
  · have hpos : (0 : ℚ) < m * 2 ^ e := by positivity
    have hne : Scalar.value x ≠ 0 := by
      rw [(value_finite hu).2]
      cases s
      · exact (neg_lt_zero.2 hpos).ne
      · exact hpos.ne'
    refine ⟨fun ⟨s', h⟩ => ?_, fun h => absurd h hne⟩
    rw [hu] at h
    cases h

/-! ## Squares -/

/-- One is neutral, also for what is not finite. -/
theorem one_mul_double (x : Float) : 1.0 * x = x := by
  have hone : (1.0 : Float).toModel.unpack = .finite .positive (2 ^ 52) (-52) (by norm_num) := by
    rfl
  have hmul : (1.0 * x).toModel =
      .pack (UnpackedFloat.mul Format.binary64 (1.0 : Float).toModel.unpack x.toModel.unpack) := rfl
  by_cases hx : x.isFinite = true
  · -- the product is not rounded, and only the two zeros have one value
    have hround := rounds_mul value_literal_one.1 hx
    rw [value_literal_one.2, one_mul] at hround
    obtain ⟨hfin, hvalue⟩ := hround.exact (representable_value hx) (abs_value_lt hx)
    have hbeq : (1.0 * x == x) = true := by
      rw [beq_iff, compare_eq hfin hx, hvalue, Option.some.injEq, compare_eq_iff_eq]
    obtain ⟨-, hu | ⟨s, s', -, hv⟩⟩ := unpack_of_beq hbeq hx
    · exact (eq_pack hu).trans (eq_pack rfl).symm
    · apply float_eq
      rw [hmul, hone, ← pack_unpack x, hv]
      cases s' <;> rfl
  · have hx : ¬ x.toModel.unpack.isFinite = true := hx
    apply float_eq
    rw [hmul, hone, ← pack_unpack x]
    cases hu : x.toModel.unpack with
    | notANumber => rfl
    | infinity s => cases s <;> rfl
    | zero | finite => rw [hu] at hx; exact absurd rfl hx

theorem pow_two_double (x : Float) : Scalar.pow x 2 = x * x := by
  have hpow : Scalar.pow x 2 = 1.0 * (x * x) := by
    simp [Scalar.pow, Scalar.mulPow]
  rw [hpow, one_mul_double]

end Arithmetic

end Quadrature
