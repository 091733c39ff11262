import Mathlib
import Quadrature.Proofs.Decimal.ReadBack
import Quadrature.Proofs.Scalar.Value

/-!
# Rounding

A number is shifted to the mantissa that a double has room for, and what is shifted out
decides between the two neighbours. What comes out is faithful (`Faithful`): no number that
doubles have room for lies between it and the original. Packed to a double, with an infinity
where the exponent ends, this says that no finite double lies between (`Rounds`).
-/

namespace Quadrature

open Float.Model Float.Model.UnpackedFloat

/-! ## Mantissas -/

section Mantissas

variable {q : ℚ} {em : ExtendedMantissa}

/-- `q` lies where a mantissa and the two bits after it say: on the mantissa, below the
half, on it, or above it. -/
def Approximates (q : ℚ) (em : ExtendedMantissa) : Prop :=
  match em.roundBit, em.stickyBit with
  | false, false => q = em.mantissa
  | false, true => em.mantissa < q ∧ q < em.mantissa + 1 / 2
  | true, false => q = em.mantissa + 1 / 2
  | true, true => em.mantissa + 1 / 2 < q ∧ q < em.mantissa + 1

theorem Approximates.shiftRightOne (h : Approximates q em) :
    Approximates (q / 2) em.shiftRightOne := by
  obtain ⟨m, r, s⟩ := em
  have hm : (m : ℚ) = 2 * (m / 2 : ℕ) + (m % 2 : ℕ) := by
    have := Nat.div_add_mod m 2
    exact_mod_cast this.symm
  have hone : ((1 : ℕ) != 0) = true := rfl
  simp only [ExtendedMantissa.shiftRightOne]
  rcases Nat.mod_two_eq_zero_or_one m with hbit | hbit <;> rw [hbit] at hm ⊢ <;>
    cases r <;> cases s <;>
    simp only [Approximates, Bool.or_false, Bool.or_true, bne_self_eq_false, hone, hm] at h ⊢ <;>
    norm_num at h ⊢ <;> first | linarith | (constructor <;> linarith)

theorem Approximates.shiftRight (h : Approximates q em) (k : ℕ) :
    Approximates (q / 2 ^ k) (em >>> k) := by
  show Approximates _ (k.repeat ExtendedMantissa.shiftRightOne em)
  induction k with
  | zero => simpa [Nat.repeat] using h
  | succ k ih =>
    rw [Nat.repeat, pow_succ, ← div_div]
    exact ih.shiftRightOne

theorem Approximates.floor (h : Approximates q em) : em.mantissa ≤ q ∧ q < em.mantissa + 1 := by
  obtain ⟨m, r, s⟩ := em
  cases r <;> cases s <;> simp only [Approximates] at h ⊢ <;> constructor <;> linarith

theorem Approximates.rounded (h : Approximates q em) :
    em.mantissa ≤ em.roundedMantissa ∧ em.roundedMantissa ≤ em.mantissa + 1 ∧
      (q = em.mantissa → em.roundedMantissa = em.mantissa) := by
  obtain ⟨m, r, s⟩ := em
  cases r <;> cases s <;> simp only [Approximates] at h ⊢
  · exact ⟨le_rfl, Nat.le_succ m, fun _ => rfl⟩
  · exact ⟨le_rfl, Nat.le_succ m, fun _ => rfl⟩
  · have hmod := Nat.mod_lt m two_pos
    refine ⟨Nat.le_add_right m _, ?_, fun hq => by linarith⟩
    show m + m % 2 ≤ m + 1
    omega
  · exact ⟨Nat.le_succ m, le_rfl, fun hq => by linarith⟩

/-- An odd mantissa is rounded up from its half on. -/
theorem Approximates.rounded_odd (h : Approximates q em) (hodd : em.mantissa % 2 = 1) :
    em.roundedMantissa = em.mantissa + 1 ↔ em.mantissa + 1 / 2 ≤ q := by
  obtain ⟨m, r, s⟩ := em
  cases r <;> cases s <;> simp only [Approximates] at h ⊢
  · exact ⟨fun hr => absurd hr (Nat.ne_of_lt (Nat.lt_succ_self m)), fun hq => by linarith⟩
  · exact ⟨fun hr => absurd hr (Nat.ne_of_lt (Nat.lt_succ_self m)), fun hq => by linarith⟩
  · refine ⟨fun _ => h.ge, fun _ => ?_⟩
    show m + m % 2 = m + 1
    rw [show m % 2 = 1 from hodd]
  · exact ⟨fun _ => h.1.le, fun _ => rfl⟩

end Mantissas

/-! ## Faithful rounding -/

/-- The numbers that doubles have room for, if their exponents were not bounded above. -/
def Representable (z : ℚ) : Prop :=
  ∃ (m : ℕ) (e : ℤ), m < 2 ^ 53 ∧ -1074 ≤ e ∧ |z| = m * 2 ^ e

theorem representable_zero : Representable 0 :=
  ⟨0, 0, by norm_num, by norm_num, by simp⟩

theorem representable_natCast {n : ℕ} (hn : n < 2 ^ 53) : Representable (n : ℚ) :=
  ⟨n, 0, hn, by norm_num, by rw [zpow_zero, mul_one, Nat.abs_cast]⟩

theorem representable_zpow {e : ℤ} (he : -1074 ≤ e) : Representable (2 ^ e) :=
  ⟨1, e, by norm_num, he, by rw [Nat.cast_one, one_mul, abs_of_nonneg (by positivity)]⟩

theorem Representable.neg {z : ℚ} (h : Representable z) : Representable (-z) := by
  obtain ⟨m, e, hm, he, h⟩ := h
  exact ⟨m, e, hm, he, (abs_neg z).trans h⟩

theorem Representable.zpow_mul {z : ℚ} {k : ℤ} (h : Representable z) (hk : 0 ≤ k) :
    Representable (2 ^ k * z) := by
  obtain ⟨m, e, hm, he, h⟩ := h
  refine ⟨m, k + e, hm, by omega, ?_⟩
  rw [abs_mul, h, abs_of_nonneg (by positivity), zpow_add₀ two_ne_zero]
  ring

theorem exists_int_mul {z u : ℚ} {m : ℕ} (h : |z| = m * u) : ∃ i : ℤ, z = i * u := by
  rcases abs_choice z with hz | hz <;> rw [hz] at h
  · exact ⟨m, h⟩
  · refine ⟨-m, ?_⟩
    rw [← neg_neg z, h, Int.cast_neg, neg_mul]
    rfl

/-- No representable number lies between `q` and what it is rounded to. -/
structure Faithful (q v : ℚ) : Prop where
  below : ∀ z, Representable z → z ≤ q → z ≤ v
  above : ∀ z, Representable z → q ≤ z → v ≤ z

theorem Faithful.neg {q v : ℚ} (h : Faithful q v) : Faithful (-q) (-v) where
  below z hz hzq := by
    have := h.above (-z) hz.neg (by linarith)
    linarith
  above z hz hzq := by
    have := h.below (-z) hz.neg (by linarith)
    linarith

theorem Faithful.signed {q v : ℚ} (h : Faithful q v) (s : Sign) :
    Faithful (signed s q) (signed s v) := by
  cases s with
  | positive => exact h
  | negative => exact h.neg

theorem Faithful.eq_of_representable {q v : ℚ} (h : Faithful q v) (hq : Representable q) :
    v = q :=
  le_antisymm (h.above q hq le_rfl) (h.below q hq le_rfl)

/-- Rounding to one of the two multiples of the last place beside `q` is faithful. -/
theorem faithful_of_floor {m r : ℕ} {t : ℤ} {q : ℚ} (hlead : 2 ^ 52 ≤ m ∨ t = -1074)
    (hlow : m ≤ q) (hhigh : q < m + 1) (hmr : m ≤ r) (hrm : r ≤ m + 1) (hexact : q = m → r = m) :
    Faithful (q * 2 ^ t) (r * 2 ^ t) := by
  have hpos : (0 : ℚ) < 2 ^ t := by positivity
  have hq : 0 ≤ q * 2 ^ t := by
    have : (0 : ℚ) ≤ q := (Nat.cast_nonneg m).trans hlow
    positivity
  -- a representable number is a multiple of the last place or below the leading bit
  have hcases {z : ℚ} (hz : Representable z) (hz0 : 0 ≤ z) :
      (∃ k : ℕ, z = k * 2 ^ t) ∨ z < m * 2 ^ t := by
    obtain ⟨m', e', hm', he', habs⟩ := hz
    rw [abs_of_nonneg hz0] at habs
    by_cases het : t ≤ e'
    · obtain ⟨j, rfl⟩ := Int.le.dest het
      refine .inl ⟨m' * 2 ^ j, ?_⟩
      rw [habs, zpow_add₀ two_ne_zero, zpow_natCast]
      push_cast
      ring
    · have hm : 2 ^ 52 ≤ m := hlead.resolve_right (by omega)
      right
      calc z = m' * 2 ^ e' := habs
        _ < 2 ^ 53 * 2 ^ e' := by
            gcongr
            exact_mod_cast hm'
        _ = 2 ^ 52 * 2 ^ (e' + 1) := by rw [zpow_add_one₀ two_ne_zero]; ring
        _ ≤ m * 2 ^ t := by
            gcongr
            · exact_mod_cast hm
            · norm_num
            · omega
  constructor
  · intro z hz hzq
    rcases le_or_gt 0 z with hz0 | hz0
    · rcases hcases hz hz0 with ⟨k, rfl⟩ | hlt
      · have hk : (k : ℚ) < m + 1 := (le_of_mul_le_mul_right hzq hpos).trans_lt hhigh
        have hkr : k ≤ r := by
          have : k < m + 1 := by exact_mod_cast hk
          omega
        gcongr
      · refine hlt.le.trans ?_
        gcongr
    · exact hz0.le.trans (by positivity)
  · intro z hz hqz
    rcases hcases hz (hq.trans hqz) with ⟨k, rfl⟩ | hlt
    · have hk : q ≤ k := le_of_mul_le_mul_right hqz hpos
      have hmk : m ≤ k := by exact_mod_cast hlow.trans hk
      have hrk : r ≤ k := by
        rcases hmk.eq_or_lt with rfl | hlt
        · rw [hexact (le_antisymm hk hlow)]
        · omega
      gcongr
    · have : (m : ℚ) * 2 ^ t ≤ q * 2 ^ t := by gcongr
      linarith

/-! ## Overflow -/

/-- From here on numbers are rounded to infinity: half a place above the greatest double. -/
def overflow : ℚ := (2 ^ 53 - 1 / 2) * 2 ^ (971 : ℤ)

theorem overflow_pos : 0 < overflow :=
  mul_pos (by norm_num) (by positivity)

/-- The last places below and above the greatest exponent. -/
theorem overflow_bounds : 2 ^ 53 * 2 ^ (970 : ℤ) ≤ overflow ∧ overflow ≤ 2 ^ 52 * 2 ^ (972 : ℤ) := by
  have hlow : (2 : ℚ) ^ (971 : ℤ) = 2 ^ (970 : ℤ) * 2 := zpow_add_one₀ two_ne_zero 970
  have hhigh : (2 : ℚ) ^ (972 : ℤ) = 2 ^ (971 : ℤ) * 2 := zpow_add_one₀ two_ne_zero 971
  have hpos : (0 : ℚ) < 2 ^ (970 : ℤ) := by positivity
  rw [overflow, hhigh, hlow]
  generalize (2 : ℚ) ^ (970 : ℤ) = u at hpos
  constructor <;> linarith

theorem zpow_le_overflow {e : ℤ} (he : e ≤ 1023) : 2 ^ e ≤ overflow :=
  calc (2 : ℚ) ^ e ≤ 2 ^ (1023 : ℤ) := zpow_le_zpow_right₀ (by norm_num) he
    _ = 2 ^ 53 * 2 ^ (970 : ℤ) := by
        rw [show (1023 : ℤ) = (53 : ℕ) + 970 from rfl, zpow_add₀ two_ne_zero, zpow_natCast]
    _ ≤ overflow := overflow_bounds.1

theorem zpow_lt_overflow {e : ℤ} (he : e < 1023) : 2 ^ e < overflow :=
  (zpow_lt_zpow_right₀ (by norm_num) he).trans_le (zpow_le_overflow le_rfl)

/-- Rounding carries the exponent beyond the greatest one exactly from `overflow` on. -/
theorem overflows_iff {m r : ℕ} {t : ℤ} {q : ℚ} (hbits : m < 2 ^ 53)
    (hlead : 2 ^ 52 ≤ m ∨ t = -1074) (hlow : m ≤ q) (hhigh : q < m + 1) (hmr : m ≤ r)
    (hrm : r ≤ m + 1) (hodd : m % 2 = 1 → (r = m + 1 ↔ m + 1 / 2 ≤ q)) :
    971 < (if r = 2 ^ 53 then t + 1 else t) ↔ overflow ≤ q * 2 ^ t := by
  have hpos : (0 : ℚ) < 2 ^ t := by positivity
  rcases lt_trichotomy t 971 with ht | rfl | ht
  · have hsmall : q * 2 ^ t < overflow := by
      have hq : q < 2 ^ 53 := hhigh.trans_le (by exact_mod_cast hbits)
      calc q * 2 ^ t < 2 ^ 53 * 2 ^ t := by gcongr
        _ ≤ 2 ^ 53 * 2 ^ (970 : ℤ) := by
            gcongr
            · norm_num
            · omega
        _ ≤ overflow := overflow_bounds.1
    refine ⟨fun h => ?_, fun h => absurd h hsmall.not_ge⟩
    split at h <;> omega
  · rw [overflow, mul_le_mul_iff_of_pos_right hpos]
    by_cases hlast : m = 2 ^ 53 - 1
    · have hm : (m : ℚ) + 1 / 2 = 2 ^ 53 - 1 / 2 := by
        rw [hlast]
        norm_num
      rw [← hm, ← hodd (by omega)]
      split <;> omega
    · have hbelow : q < 2 ^ 53 - 1 / 2 := by
        have : (m : ℚ) + 2 ≤ 2 ^ 53 := by exact_mod_cast (show m + 2 ≤ 2 ^ 53 by omega)
        linarith
      refine ⟨fun h => ?_, fun h => absurd h hbelow.not_ge⟩
      split at h <;> omega
  · have hm : 2 ^ 52 ≤ m := hlead.resolve_right (by omega)
    have hq : (2 : ℚ) ^ 52 ≤ q := le_trans (by exact_mod_cast hm) hlow
    refine ⟨fun _ => ?_, fun _ => by split <;> omega⟩
    calc overflow ≤ 2 ^ 52 * 2 ^ (972 : ℤ) := overflow_bounds.2
      _ ≤ q * 2 ^ t :=
          mul_le_mul hq (zpow_le_zpow_right₀ (by norm_num) (by omega)) (by positivity)
            (le_trans (by positivity) hq)

/-- A mantissa and an exponent that a number is rounded to. -/
structure RoundsTo (q : ℚ) (M : ℕ) (E : ℤ) : Prop where
  faithful : Faithful q (M * 2 ^ E)
  mantissa : M < 2 ^ 53
  least : -1074 ≤ E
  leading : 2 ^ 52 ≤ M ∨ E = -1074
  overflows : 971 < E ↔ overflow ≤ q

/-- An unpacked double, zero if its mantissa is. -/
def ofFields (s : Sign) (M : ℕ) (E : ℤ) : UnpackedFloat :=
  if h : M = 0 then .zero s else .finite s M E (Nat.pos_of_ne_zero h)

section Rounding

variable {m : ℕ} {e : ℤ} {a : Accuracy} {q : ℚ} {s : Sign}

theorem mantissa_shiftRight (em : ExtendedMantissa) (k : ℕ) :
    (em >>> k).mantissa = em.mantissa / 2 ^ k := by
  show (k.repeat ExtendedMantissa.shiftRightOne em).mantissa = _
  induction k with
  | zero => simp [Nat.repeat]
  | succ k ih => rw [Nat.repeat, ExtendedMantissa.shiftRightOne, ih, Nat.div_div_eq_div_mul, ← pow_succ]

theorem mantissa_ofMantissaAndAccuracy :
    (ExtendedMantissa.ofMantissaAndAccuracy m a).mantissa = m := by
  rcases a with _ | _ | _ | _ <;> rfl

/-- Shifted to its target exponent, a mantissa has at most 53 bits, and fewer only at the
least exponent. -/
theorem shifted_bounds {k : ℕ} (hk : Format.binary64.targetExponent (totalExponent m e) = e + k) :
    m / 2 ^ k < 2 ^ 53 ∧ (2 ^ 52 ≤ m / 2 ^ k ∨ e + k = -1074) := by
  have hlog : m < 2 ^ (m.log2 + 1) := Nat.lt_log2_self
  rw [targetExponent_eq, totalExponent] at hk
  constructor
  · rw [Nat.div_lt_iff_lt_mul (Nat.two_pow_pos k), ← pow_add]
    exact hlog.trans_le (Nat.pow_le_pow_right two_pos (by omega))
  · by_cases hleast : e + k = -1074
    · exact .inr hleast
    · left
      have hbits : m.log2 = 52 + k := by omega
      have hm : m ≠ 0 := by
        rintro rfl
        rw [Nat.log2_zero] at hbits
        omega
      rw [Nat.le_div_iff_mul_le (Nat.two_pow_pos k), ← pow_add, ← hbits]
      exact Nat.log2_self_le hm

/-- A mantissa of at most 53 bits stays where it is; a carry is shifted out again. -/
theorem shiftToTarget_rounded {t : ℤ} (hm : m ≤ 2 ^ 53) (ht : -1074 ≤ t) :
    shiftToTargetExponent Format.binary64 m t .exact =
      if m = 2 ^ 53 then (⟨2 ^ 52, false, false⟩, t + 1) else (⟨m, false, false⟩, t) := by
  split
  · next hcarry =>
    subst hcarry
    have htarget : Format.binary64.targetExponent (totalExponent (2 ^ 53) t) = t + 1 := by
      rw [targetExponent_eq, totalExponent, Nat.log2_two_pow]
      omega
    have hone : (t + 1 - t).toNat = 1 := by omega
    have hpow : (2 : ℕ) ^ 53 = 2 ^ 52 * 2 ^ 1 := by norm_num
    rw [shiftToTargetExponent, htarget, shiftToExponent, hone, hpow]
    exact congrArg (·, t + 1) (shiftRight_exact (2 ^ 52) 1)
  · next hcarry =>
    have hlog : m.log2 ≤ 52 := by
      rcases Nat.eq_zero_or_pos m with rfl | hpos
      · rw [Nat.log2_zero]
        omega
      · exact Nat.le_of_lt_succ ((Nat.log2_lt hpos.ne').2 (by omega))
    have hzero : (Format.binary64.targetExponent (totalExponent m t) - t).toNat = 0 := by
      rw [targetExponent_eq, totalExponent]
      omega
    rw [shiftToTargetExponent, shiftToExponent, hzero]
    show (_, t + (0 : ℕ)) = _
    rw [Nat.cast_zero, add_zero]
    rfl

/-- Rounding is as it should be when no bits of the target are missing. -/
theorem exists_roundsTo (s : Sign) (h : Approximates q (.ofMantissaAndAccuracy m a))
    (he : e ≤ Format.binary64.targetExponent (totalExponent m e)) :
    ∃ (M : ℕ) (E : ℤ), RoundsTo (q * 2 ^ e) M E ∧
      roundWithAccuracy Format.binary64 s m e a = ofFields s M E := by
  obtain ⟨k, hk⟩ := Int.le.dest he
  obtain ⟨hbits, hlead⟩ := shifted_bounds hk.symm
  have hleast : -1074 ≤ e + k := by
    rw [hk, targetExponent_eq]
    omega
  have hshift := h.shiftRight k
  obtain ⟨hlow, hhigh⟩ := hshift.floor
  obtain ⟨hmr, hrm, hexact⟩ := hshift.rounded
  have hodd := hshift.rounded_odd
  set em := ExtendedMantissa.ofMantissaAndAccuracy m a >>> k with hem
  have hmantissa : em.mantissa = m / 2 ^ k := by
    rw [hem, mantissa_shiftRight, mantissa_ofMantissaAndAccuracy]
  rw [← hmantissa] at hbits hlead
  have hfaithful := faithful_of_floor hlead hlow hhigh hmr hrm hexact
  have hover := overflows_iff hbits hlead hlow hhigh hmr hrm hodd
  have hq : q / 2 ^ k * 2 ^ (e + k) = q * 2 ^ e := by
    rw [zpow_add₀ two_ne_zero, zpow_natCast]
    field_simp
  rw [hq] at hfaithful hover
  have hfirst : shiftToTargetExponent Format.binary64 m e a = (em, e + k) := by
    have hk' : (e + k - e).toNat = k := by omega
    rw [shiftToTargetExponent, ← hk, shiftToExponent, hk']
  have hsecond := shiftToTarget_rounded (show em.roundedMantissa ≤ 2 ^ 53 by omega) hleast
  by_cases hcarry : em.roundedMantissa = 2 ^ 53
  · rw [if_pos hcarry] at hsecond hover
    refine ⟨2 ^ 52, e + k + 1, ⟨?_, by norm_num, by omega, .inl le_rfl, hover⟩, ?_⟩
    · rw [hcarry] at hfaithful
      convert hfaithful using 1
      rw [zpow_add_one₀ two_ne_zero]
      push_cast
      ring
    · rw [roundWithAccuracy, hfirst]
      simp only [hsecond]
      rfl
  · rw [if_neg hcarry] at hsecond hover
    refine ⟨em.roundedMantissa, e + k, ⟨hfaithful, by omega, hleast, ?_, hover⟩, ?_⟩
    · exact hlead.imp_left fun h => h.trans hmr
    · rw [roundWithAccuracy, hfirst]
      simp only [hsecond]
      rfl

/-- Rounding first adds the bits that are missing. -/
theorem exists_roundsTo_round (s : Sign) (hm : 0 < m) (e : ℤ) :
    ∃ (M : ℕ) (E : ℤ), RoundsTo (m * 2 ^ e) M E ∧
      UnpackedFloat.round Format.binary64 s m e = ofFields s M E := by
  rw [UnpackedFloat.round, decreaseExponent]
  dsimp only
  generalize hj : (e - Format.binary64.targetExponent (totalExponent m e)).toNat = j
  have hscaled : (m : ℚ) * 2 ^ e = (m <<< j : ℕ) * 2 ^ (e - j) := by
    rw [Nat.shiftLeft_eq, zpow_sub₀ two_ne_zero, zpow_natCast]
    push_cast
    field_simp
  have htarget : e - j ≤ Format.binary64.targetExponent (totalExponent (m <<< j) (e - j)) := by
    have htotal : totalExponent (m <<< j) (e - j) = totalExponent m e := by
      rw [totalExponent, totalExponent, Nat.shiftLeft_eq, log2_mul_two_pow hm]
      omega
    rw [htotal]
    omega
  rw [hscaled]
  refine exists_roundsTo s ?_ htarget
  show ((m <<< j : ℕ) : ℚ) = (m <<< j : ℕ)
  rfl

end Rounding

/-! ## Doubles that round numbers -/

/-- A double is the rounding of a number: no finite double lies between the two, and it is
an infinity exactly from `overflow` on. -/
structure Rounds (q : ℚ) (x : Float) : Prop where
  below : ∀ y : Float, y.isFinite = true → Scalar.value y ≤ q → y ≤ x
  above : ∀ y : Float, y.isFinite = true → q ≤ Scalar.value y → x ≤ y
  isFinite_iff : x.isFinite = true ↔ |q| < overflow

theorem abs_signed (s : Sign) {v : ℚ} (hv : 0 ≤ v) : |signed s v| = v := by
  cases s with
  | positive => exact abs_of_nonneg hv
  | negative => exact (abs_neg v).trans (abs_of_nonneg hv)

section Doubles

variable {x y : Float} {s : Sign} {m M : ℕ} {e E : ℤ} {q z : ℚ}

theorem isField_lt (h : IsField m e) : (m : ℚ) * 2 ^ e < overflow :=
  calc (m : ℚ) * 2 ^ e ≤ (2 ^ 53 - 1) * 2 ^ (971 : ℤ) := by
        have hm : (m : ℚ) + 1 ≤ 2 ^ 53 := by exact_mod_cast h.mantissa
        have he := h.greatest
        gcongr
        · linarith
        · norm_num
    _ < overflow := mul_lt_mul_of_pos_right (by norm_num) (by positivity)

/-- What has its leading bit above the greatest exponent is greater than every double. -/
theorem overflow_le (hlead : 2 ^ 52 ≤ M) (hE : 971 < E) : overflow ≤ M * 2 ^ E :=
  calc overflow ≤ 2 ^ 52 * 2 ^ (972 : ℤ) := overflow_bounds.2
    _ ≤ (M : ℚ) * 2 ^ E := by
        gcongr
        · exact_mod_cast hlead
        · norm_num
        · omega

theorem representable_value (hx : x.isFinite = true) : Representable (Scalar.value x) := by
  obtain ⟨s, hu⟩ | ⟨s, m, e, hm, hu, hf⟩ := exists_field hx
  · rw [(value_zero hu).2]
    exact ⟨0, 0, by norm_num, by norm_num, by simp⟩
  · rw [(value_finite hu).2]
    exact ⟨m, e, hf.mantissa, hf.least, abs_signed s (by positivity)⟩

/-- Integers in the least place, such as doubles and their sums. -/
def IsWhole (z : ℚ) : Prop :=
  ∃ j : ℤ, z = j * 2 ^ (-1074 : ℤ)

namespace IsWhole

variable {w : ℚ}

theorem add (hz : IsWhole z) (hw : IsWhole w) : IsWhole (z + w) := by
  obtain ⟨i, rfl⟩ := hz
  obtain ⟨j, rfl⟩ := hw
  exact ⟨i + j, by rw [Int.cast_add, add_mul]⟩

theorem intCast_mul (hz : IsWhole z) (k : ℤ) : IsWhole (k * z) := by
  obtain ⟨j, rfl⟩ := hz
  exact ⟨k * j, by rw [Int.cast_mul, mul_assoc]⟩

theorem sub (hz : IsWhole z) (hw : IsWhole w) : IsWhole (z - w) := by
  have hneg : z - w = z + (-1 : ℤ) * w := by push_cast; ring
  exact hneg ▸ hz.add (hw.intCast_mul (-1))

/-- Where the least place is the last one, integers in it are what doubles have room for. -/
theorem representable (h : IsWhole z) (hsmall : |z| < 2 ^ (-1021 : ℤ)) : Representable z := by
  obtain ⟨j, rfl⟩ := h
  have hunit : (0 : ℚ) < 2 ^ (-1074 : ℤ) := by positivity
  have habs : |(j : ℚ) * 2 ^ (-1074 : ℤ)| = j.natAbs * 2 ^ (-1074 : ℤ) := by
    rw [abs_mul, abs_of_pos hunit, Nat.cast_natAbs, Int.cast_abs]
  have hleast : (2 : ℚ) ^ (-1021 : ℤ) = 2 ^ 53 * 2 ^ (-1074 : ℤ) := by
    rw [show (-1021 : ℤ) = -1074 + (53 : ℕ) from rfl, zpow_add₀ two_ne_zero, zpow_natCast,
      mul_comm]
  rw [habs, hleast, mul_lt_mul_iff_of_pos_right hunit] at hsmall
  exact ⟨j.natAbs, -1074, by exact_mod_cast hsmall, le_rfl, habs⟩

end IsWhole

theorem isWhole_value (hx : x.isFinite = true) : IsWhole (Scalar.value x) := by
  obtain ⟨m, e, -, he, habs⟩ := representable_value hx
  obtain ⟨k, rfl⟩ := Int.le.dest he
  have hpower : |Scalar.value x| = (m * 2 ^ k : ℕ) * 2 ^ (-1074 : ℤ) := by
    rw [habs, zpow_add₀ two_ne_zero, zpow_natCast, Nat.cast_mul, Nat.cast_pow, Nat.cast_two,
      mul_assoc, mul_comm (2 ^ k : ℚ)]
  exact exists_int_mul hpower

/-- A small difference of doubles is one that doubles have room for. -/
theorem representable_sub (hx : x.isFinite = true) (hy : y.isFinite = true)
    (hsmall : |Scalar.value y - Scalar.value x| < 2 ^ (-1021 : ℤ)) :
    Representable (Scalar.value y - Scalar.value x) :=
  ((isWhole_value hy).sub (isWhole_value hx)).representable hsmall

theorem abs_value_lt (hx : x.isFinite = true) : |Scalar.value x| < overflow := by
  obtain ⟨s, hu⟩ | ⟨s, m, e, hm, hu, hf⟩ := exists_field hx
  · rw [(value_zero hu).2, abs_zero]
    exact overflow_pos
  · rw [(value_finite hu).2, abs_signed s (by positivity)]
    exact isField_lt hf

theorem exists_double (hz : Representable z) (hlt : |z| < overflow) :
    ∃ y : Float, y.isFinite = true ∧ Scalar.value y = z := by
  obtain ⟨m, e, hm, he, habs⟩ := hz
  obtain ⟨s, hs⟩ : ∃ s, z = signed s |z| := by
    rcases abs_choice z with h | h
    · exact ⟨.positive, h.symm⟩
    · exact ⟨.negative, by rw [signed, h, neg_neg]⟩
  rcases Nat.eq_zero_or_pos m with rfl | hpos
  · have hzero : z = 0 := by simpa using habs
    exact ⟨.ofModel (.pack (.zero s)), hzero ▸ value_zero unpack_pack_zero⟩
  · obtain ⟨M, E, h, -⟩ := exists_roundsTo_round s hpos e
    have heq : (M : ℚ) * 2 ^ E = |z| := by
      rw [h.faithful.eq_of_representable ⟨m, e, hm, he, abs_of_nonneg (by positivity)⟩, habs]
    have hMpos : 0 < M := by
      rcases Nat.eq_zero_or_pos M with rfl | h
      · have : (0 : ℚ) < m * 2 ^ e := by positivity
        rw [← habs, ← heq] at this
        simp at this
      · exact h
    have hfield : IsField M E :=
      ⟨hMpos, h.mantissa, h.least, not_lt.1 fun hE => (h.overflows.1 hE).not_gt (habs ▸ hlt),
        h.leading⟩
    refine ⟨.ofModel (.pack (.finite s M E hMpos)), ?_⟩
    have hvalue := value_finite (x := .ofModel (.pack (.finite s M E hMpos)))
      (unpack_pack_finite hfield)
    rwa [heq, ← hs] at hvalue

theorem Faithful.rounds (hx : x.isFinite = true) (h : Faithful q (Scalar.value x))
    (hq : |q| < overflow) : Rounds q x where
  below _ hy hyq := (le_iff hy hx).2 (h.below _ (representable_value hy) hyq)
  above _ hy hqy := (le_iff hx hy).2 (h.above _ (representable_value hy) hqy)
  isFinite_iff := iff_of_true hx hq

theorem rounds_value (hx : x.isFinite = true) : Rounds (Scalar.value x) x where
  below _ hy := (le_iff hy hx).2
  above _ hy := (le_iff hx hy).2
  isFinite_iff := iff_of_true hx (abs_value_lt hx)

/-- The fields that a number is rounded to pack to a double that rounds it, also where they
are too large and pack to an infinity. -/
theorem RoundsTo.rounds (h : RoundsTo q M E) (hq : 0 ≤ q) (s : Sign) :
    Rounds (signed s q) (.ofModel (.pack (ofFields s M E))) := by
  have hs := h.faithful.signed s
  have habs := abs_signed s hq
  by_cases hzero : M = 0
  · have hE : ¬ 971 < E := by
      intro hE
      rcases h.leading with hlead | hlead <;> omega
    obtain ⟨hx, hv⟩ := value_zero (x := .ofModel (.pack (.zero s))) unpack_pack_zero
    rw [ofFields, dif_pos hzero]
    refine Faithful.rounds hx ?_ ?_
    · rw [hv]
      subst hzero
      cases s <;> simpa [signed] using hs
    · rw [habs]
      exact not_le.1 (mt h.overflows.2 hE)
  · have hpos := Nat.pos_of_ne_zero hzero
    rw [ofFields, dif_neg hzero]
    rcases le_or_gt E 971 with hsmall | hlarge
    · obtain ⟨hx, hv⟩ := value_finite (x := .ofModel (.pack (.finite s M E hpos)))
        (unpack_pack_finite ⟨hpos, h.mantissa, h.least, hsmall, h.leading⟩)
      refine Faithful.rounds hx (hv ▸ hs) ?_
      rw [habs]
      exact not_le.1 (mt h.overflows.2 hsmall.not_gt)
    · have hover := overflow_le (h.leading.resolve_right (by omega)) hlarge
      have hinf : (Float.Model.pack (.finite s M E hpos)).unpack = .infinity s :=
        unpack_pack_overflow hlarge
      have hinfinite : ¬ Float.isFinite (.ofModel (.pack (.finite s M E hpos))) = true := by
        show ¬ (Float.Model.pack (.finite s M E hpos)).unpack.isFinite = true
        rw [hinf]
        exact Bool.false_ne_true
      have hiff : Float.isFinite (.ofModel (.pack (.finite s M E hpos))) = true ↔
          |signed s q| < overflow := by
        rw [habs]
        exact iff_of_false hinfinite (h.overflows.1 hlarge).not_gt
      cases s with
      | positive =>
        refine ⟨fun y hy _ => le_infinity hy hinf, fun y hy hqy => ?_, hiff⟩
        have hle : (M : ℚ) * 2 ^ E ≤ Scalar.value y := hs.above _ (representable_value hy) hqy
        exact absurd (hover.trans hle) (abs_lt.1 (abs_value_lt hy)).2.not_ge
      | negative =>
        refine ⟨fun y hy hyq => ?_, fun y hy _ => infinity_le hinf hy, hiff⟩
        have hle : Scalar.value y ≤ -((M : ℚ) * 2 ^ E) :=
          hs.below _ (representable_value hy) hyq
        exact absurd (hover.trans (le_neg.1 hle)) (neg_lt.1 (abs_lt.1 (abs_value_lt hy)).1).not_ge

end Doubles

/-! ## Room beside a number -/

/-- Doubles have room for numbers on both sides of a number that is not too small, at one part
in `2 ^ 52` at most. -/
theorem exists_representable_near {q : ℚ} (hq : 2 ^ (-1022 : ℤ) ≤ q) :
    ∃ l u, Representable l ∧ Representable u ∧ l ≤ q ∧ q ≤ u ∧ q * (1 - 2 ^ (-52 : ℤ)) ≤ l ∧
      u ≤ q * (1 + 2 ^ (-52 : ℤ)) := by
  have hpos : 0 < q := lt_of_lt_of_le (by positivity) hq
  obtain ⟨e, he⟩ : ∃ e : ℤ, e = Int.log 2 q - 52 := ⟨_, rfl⟩
  have hlow : (2 : ℚ) ^ (e + 52) ≤ q := by
    rw [he, sub_add_cancel]
    exact_mod_cast Int.zpow_log_le_self (b := 2) (by norm_num) hpos
  have hhigh : q < (2 : ℚ) ^ (e + 53) := by
    have hsucc : e + 53 = Int.log 2 q + 1 := by omega
    rw [hsucc]
    exact_mod_cast Int.lt_zpow_succ_log_self (b := 2) (by norm_num) q
  have hleast : -1074 ≤ e := by
    have hlt : (2 : ℚ) ^ (-1022 : ℤ) < 2 ^ (e + 53) := hq.trans_lt hhigh
    have := (zpow_lt_zpow_iff_right₀ (by norm_num)).1 hlt
    omega
  have hunit : (0 : ℚ) < 2 ^ e := by positivity
  have hulp : (2 : ℚ) ^ e ≤ q * 2 ^ (-52 : ℤ) := by
    calc (2 : ℚ) ^ e = 2 ^ (e + 52) * 2 ^ (-52 : ℤ) := by
          rw [← zpow_add₀ two_ne_zero]
          congr 1
          omega
      _ ≤ q * 2 ^ (-52 : ℤ) := by gcongr
  -- multiples of the last place, the lower one of 53 bits and the upper one perhaps a carry
  obtain ⟨k, hk⟩ : ∃ k : ℕ, k = ⌊q / 2 ^ e⌋₊ := ⟨_, rfl⟩
  have hkq : (k : ℚ) * 2 ^ e ≤ q := by
    rw [← le_div_iff₀ hunit, hk]
    exact Nat.floor_le (by positivity)
  have hqk : q < (k + 1 : ℕ) * 2 ^ e := by
    rw [← div_lt_iff₀ hunit, hk, Nat.cast_succ]
    exact Nat.lt_floor_add_one _
  have hbits : k < 2 ^ 53 := by
    rw [hk, Nat.floor_lt (by positivity), div_lt_iff₀ hunit]
    refine hhigh.trans_eq ?_
    rw [add_comm, zpow_add₀ two_ne_zero]
    norm_num
  have hupper : Representable ((k + 1 : ℕ) * 2 ^ e) := by
    rcases (show k + 1 ≤ 2 ^ 53 from hbits).eq_or_lt with hcarry | hlt
    · refine ⟨2 ^ 52, e + 1, by norm_num, by omega, ?_⟩
      rw [abs_of_nonneg (by positivity), hcarry, zpow_add_one₀ two_ne_zero]
      push_cast
      ring
    · exact ⟨k + 1, e, hlt, hleast, abs_of_nonneg (by positivity)⟩
  have hstep : ((k + 1 : ℕ) : ℚ) * 2 ^ e = k * 2 ^ e + 2 ^ e := by push_cast; ring
  exact ⟨k * 2 ^ e, (k + 1 : ℕ) * 2 ^ e, ⟨k, e, hbits, hleast, abs_of_nonneg (by positivity)⟩,
    hupper, hkq, hqk.le, by linarith, by linarith⟩

/-! ## What is known of a rounding -/

namespace Rounds

variable {x a b : Float} {q z : ℚ}

theorem isNaN (h : Rounds q x) : x.isNaN = false := by
  obtain ⟨hzero, hvalue⟩ := value_zero (x := 0.0) (s := .positive) unpack_zero
  rcases le_total q 0 with hq | hq
  · exact (isNaN_of_le (h.above 0.0 hzero (hq.trans_eq hvalue.symm))).1
  · exact (isNaN_of_le (h.below 0.0 hzero (hvalue.trans_le hq))).2

/-- What doubles have room for is not rounded. -/
theorem exact (h : Rounds q x) (hq : Representable q) (hlt : |q| < overflow) :
    x.isFinite = true ∧ Scalar.value x = q := by
  obtain ⟨y, hy, rfl⟩ := exists_double hq hlt
  have hx := h.isFinite_iff.2 hlt
  refine ⟨hx, le_antisymm ?_ ?_⟩
  · exact (le_iff hx hy).1 (h.above y hy le_rfl)
  · exact (le_iff hy hx).1 (h.below y hy le_rfl)

theorem abs_lt_overflow (h : Rounds q x) (hx : x.isFinite = true) : |q| < overflow :=
  h.isFinite_iff.1 hx

/-- A finite rounding is not above what doubles have room for, even where they end. -/
theorem le_representable (h : Rounds q x) (hx : x.isFinite = true) (hz : Representable z)
    (hqz : q ≤ z) : Scalar.value x ≤ z := by
  rcases lt_or_ge z overflow with hlt | hge
  · rcases lt_or_ge |z| overflow with habs | habs
    · obtain ⟨y, hy, rfl⟩ := exists_double hz habs
      exact (le_iff hx hy).1 (h.above y hy hqz)
    · have hq := abs_lt.1 (h.abs_lt_overflow hx)
      rcases le_abs.1 habs with hz | hz <;> linarith
  · exact (abs_lt.1 (abs_value_lt hx)).2.le.trans hge

theorem representable_le (h : Rounds q x) (hx : x.isFinite = true) (hz : Representable z)
    (hzq : z ≤ q) : z ≤ Scalar.value x := by
  rcases lt_or_ge |z| overflow with habs | habs
  · obtain ⟨y, hy, rfl⟩ := exists_double hz habs
    exact (le_iff hy hx).1 (h.below y hy hzq)
  · have hq := abs_lt.1 (h.abs_lt_overflow hx)
    have hv := abs_lt.1 (abs_value_lt hx)
    rcases le_abs.1 habs with hz | hz <;> linarith

/-- The roundings of smaller numbers are finite as well. -/
theorem isFinite_of_le {q' : ℚ} {x' : Float} (h : Rounds q x) (h' : Rounds q' x')
    (hx' : x'.isFinite = true) (hle : |q| ≤ |q'|) : x.isFinite = true :=
  h.isFinite_iff.2 (hle.trans_lt (h'.abs_lt_overflow hx'))

theorem value_nonneg (h : Rounds q x) (hx : x.isFinite = true) (hq : 0 ≤ q) :
    0 ≤ Scalar.value x :=
  h.representable_le hx representable_zero hq

/-- A number that is not too small is rounded up by one part in `2 ^ 52` at most. -/
theorem value_le (h : Rounds q x) (hx : x.isFinite = true) (hq : 2 ^ (-1022 : ℤ) ≤ q) :
    Scalar.value x ≤ q * (1 + 2 ^ (-52 : ℤ)) := by
  obtain ⟨-, u, -, hu, -, hqu, -, hclose⟩ := exists_representable_near hq
  exact (h.le_representable hx hu hqu).trans hclose

end Rounds

end Quadrature
