import Quadrature.Decimal.Shortest
import Quadrature.Proofs.Scalar.Packing

/-!
# Reading decimals back

The decimal with all digits of a double is rounded to the double itself
(`toFloat_exact`), so `shortest` always finds one that reads back
(`toFloat_shortest`). Decimals have no sign: their doubles have none either.
-/

namespace Quadrature

open Float.Model Float.Model.UnpackedFloat

section Rounding

variable {m : Nat} {e : Int} {s : Sign}

theorem log2_mul_two_pow (hm : 0 < m) (j : Nat) : (m * 2 ^ j).log2 = m.log2 + j := by
  have hne : m ≠ 0 := Nat.ne_of_gt hm
  have hle : 2 ^ m.log2 ≤ m := Nat.log2_self_le hne
  have hlt : m < 2 ^ (m.log2 + 1) := Nat.lt_log2_self
  have hpos := Nat.two_pow_pos j
  rw [Nat.log2_eq_iff (Nat.ne_of_gt (Nat.mul_pos hm hpos))]
  constructor
  · rw [Nat.pow_add]
    exact Nat.mul_le_mul_right _ hle
  · rw [Nat.add_right_comm, Nat.pow_add]
    exact Nat.mul_lt_mul_of_pos_right hlt hpos

/-- Zeros are shifted out without a trace. -/
theorem shiftRight_exact (m j : Nat) :
    (⟨m * 2 ^ j, false, false⟩ : ExtendedMantissa) >>> j = ⟨m, false, false⟩ := by
  show j.repeat ExtendedMantissa.shiftRightOne _ = _
  induction j generalizing m with
  | zero => rw [Nat.pow_zero, Nat.mul_one]; rfl
  | succ j ih =>
    have hm : m * 2 ^ (j + 1) = m * 2 * 2 ^ j := by rw [Nat.pow_succ', Nat.mul_assoc]
    rw [hm, Nat.repeat, ih (m * 2)]
    simp [ExtendedMantissa.shiftRightOne]

/-- The fields of a double are found again however many zeros the mantissa has at its end. -/
theorem roundWithAccuracy_exact (h : IsField m e) (j : Nat) :
    roundWithAccuracy Format.binary64 s (m * 2 ^ j) (e - j) .exact = .finite s m e h.pos := by
  have htotal : totalExponent (m * 2 ^ j) (e - j) = totalExponent m e := by
    rw [totalExponent, totalExponent, log2_mul_two_pow h.pos]
    omega
  have hj : (e - (e - j)).toNat = j := by omega
  have hfirst : shiftToTargetExponent Format.binary64 (m * 2 ^ j) (e - j) .exact =
      (⟨m, false, false⟩, e) := by
    rw [shiftToTargetExponent, htotal, h.targetExponent, shiftToExponent, hj]
    show ((⟨m * 2 ^ j, false, false⟩ : ExtendedMantissa) >>> j, e - j + j) = _
    rw [shiftRight_exact, Int.sub_add_cancel]
  have hsecond : shiftToTargetExponent Format.binary64 m e .exact = (⟨m, false, false⟩, e) := by
    rw [shiftToTargetExponent, h.targetExponent, shiftToExponent, Int.sub_self]
    show (_, e + (0 : Nat)) = _
    rw [Int.natCast_zero, Int.add_zero]
    rfl
  have hround : ExtendedMantissa.roundedMantissa ⟨m, false, false⟩ = m := rfl
  rw [roundWithAccuracy, hfirst]
  simp only [hround, hsecond]
  rw [dif_neg (Nat.ne_of_gt h.pos)]

theorem ofScientific_whole (h : IsField m e) (he : 0 ≤ e) :
    UnpackedFloat.ofScientific Format.binary64 (m * 2 ^ e.toNat) 0 =
      .finite .positive m e h.pos := by
  have hpos : 0 < m * 2 ^ e.toNat := Nat.mul_pos h.pos (Nat.two_pow_pos _)
  have hbits : (2 : Int) ^ Format.binary64.exponentBits = 2048 := by decide
  have hm : (m * 2 ^ e.toNat) <<< 53 * 10 ^ (0 : Int).toNat = m * 2 ^ (e.toNat + 53) := by
    rw [Nat.shiftLeft_eq, Nat.pow_add]
    simp [Nat.mul_assoc]
  have hexp : -((53 : Nat) : Int) + 0 = e - (e.toNat + 53 : Nat) := by omega
  rw [UnpackedFloat.ofScientific, dif_neg (Nat.ne_of_gt hpos), if_neg (by decide),
    if_neg (by omega), if_pos (by decide)]
  show roundWithAccuracy Format.binary64 .positive ((m * 2 ^ e.toNat) <<< 53 * 10 ^ (0 : Int).toNat)
    (-((53 : Nat) : Int) + 0) .exact = _
  rw [hm, hexp, roundWithAccuracy_exact h]

/-- The quotient by a power of ten has no remainder: enough zeros are added first. -/
theorem divCore_exact (h : IsField m e) (he : e < 0) :
    ∃ i : Nat, divCore Format.binary64 (m * 5 ^ (-e).toNat) 0 (10 ^ (-e).toNat) 0 =
      (m * 2 ^ i, e - i, .exact) := by
  obtain ⟨k, rfl⟩ : ∃ k : Nat, e = -k := ⟨(-e).toNat, by omega⟩
  have hk : (-(-(k : Int))).toNat = k := by omega
  rw [hk]
  have hten : 0 < 10 ^ k := Nat.pow_pos (by decide)
  have hpos : 0 < m * 5 ^ k := Nat.mul_pos h.pos (Nat.pow_pos (by decide))
  have hpow : m * 5 ^ k * 2 ^ k = m * 10 ^ k := by rw [Nat.mul_assoc, ← Nat.mul_pow]
  -- the binary logarithm of the quotient, at most one too large
  have hlog : (m * 5 ^ k).log2 + k ≤ m.log2 + (10 ^ k).log2 + 1 := by
    have hlt : m * 10 ^ k < 2 ^ (m.log2 + 1 + ((10 ^ k).log2 + 1)) := by
      rw [Nat.pow_add]
      exact Nat.mul_lt_mul'' Nat.lt_log2_self Nat.lt_log2_self
    have hlt' := (Nat.log2_lt (Nat.ne_of_gt (Nat.mul_pos h.pos hten))).2 hlt
    rw [← hpow, log2_mul_two_pow hpos] at hlt'
    omega
  have hm : m.log2 < 53 := (Nat.log2_lt (Nat.ne_of_gt h.pos)).2 h.mantissa
  have hleast := h.least
  obtain ⟨i, hi⟩ : ∃ i : Nat, min ((0 : Int) - 0) (Format.binary64.targetExponent
      (totalExponent (m * 5 ^ k) 0 - totalExponent (10 ^ k) 0)) = -k - i := by
    have hle : min ((0 : Int) - 0) (Format.binary64.targetExponent
        (totalExponent (m * 5 ^ k) 0 - totalExponent (10 ^ k) 0)) ≤ -k := by
      rw [targetExponent_eq, totalExponent, totalExponent]
      omega
    obtain ⟨i, hi⟩ := Int.le.dest hle
    exact ⟨i, by omega⟩
  refine ⟨i, ?_⟩
  have hshift : ((0 : Int) - 0 - (-k - i)).toNat = k + i := by omega
  have hnum : (m * 5 ^ k) <<< (k + i) = m * 2 ^ i * 10 ^ k := by
    rw [Nat.shiftLeft_eq, Nat.pow_add, ← Nat.mul_assoc, hpow, Nat.mul_right_comm]
  rw [divCore, hi]
  simp only [hshift, hnum]
  rw [Nat.mul_div_cancel _ hten, Nat.mul_mod_left]
  rfl

theorem ofScientific_fraction (h : IsField m e) (he : e < 0) :
    UnpackedFloat.ofScientific Format.binary64 (m * 5 ^ (-e).toNat) e =
      .finite .positive m e h.pos := by
  have hpos : 0 < m * 5 ^ (-e).toNat := Nat.mul_pos h.pos (Nat.pow_pos (by decide))
  have hbits : (2 : Int) ^ Format.binary64.exponentBits = 2048 := by decide
  have hleast := h.least
  obtain ⟨i, hdiv⟩ := divCore_exact h he
  rw [UnpackedFloat.ofScientific, dif_neg (Nat.ne_of_gt hpos), if_neg (by omega),
    if_neg (by omega), if_neg (by omega), UnpackedFloat.div]
  simp only [hdiv]
  exact roundWithAccuracy_exact h i

end Rounding

/-! ## Decimals of doubles -/

section Doubles

variable {x : Float}

/-- All digits of a double read back to it. -/
theorem toFloat_exact {s : Sign} {m : Nat} {e : Int} {hm : 0 < m}
    (h : x.toModel.unpack = .finite s m e hm) :
    (Binary64.ofFloat x).exact.unscaled.toFloat = x.abs := by
  have hf := isField_of_unpack h
  obtain ⟨hman, hexp⟩ := ofFloat_of_unpack h
  rw [abs_eq_finite h, Binary64.exact, hman, hexp]
  by_cases he : 0 ≤ e
  · have hlog : (m * 2 ^ e.toNat).log2 ≤ 1100 := by
      have hlt : m.log2 < 53 := (Nat.log2_lt (Nat.ne_of_gt hm)).2 hf.mantissa
      have hgreatest := hf.greatest
      rw [log2_mul_two_pow hm]
      omega
    rw [if_pos he]
    show Decimal.toFloat ⟨m * 2 ^ e.toNat * 1, 0⟩ = _
    rw [Nat.mul_one, Decimal.toFloat, if_neg (by dsimp only; omega)]
    show Float.ofModel (.pack (UnpackedFloat.ofScientific Format.binary64 (m * 2 ^ e.toNat) 0)) = _
    rw [ofScientific_whole hf he]
  · rw [if_neg he]
    have hunscaled : Decimal.unscaled ⟨m * 5 ^ (-e).toNat, e⟩ = ⟨m * 5 ^ (-e).toNat, e⟩ :=
      if_neg he
    show (Decimal.unscaled ⟨m * 5 ^ (-e).toNat, e⟩).toFloat = _
    rw [hunscaled, Decimal.toFloat, if_neg (by dsimp only; omega)]
    show Float.ofModel (.pack
      (UnpackedFloat.ofScientific Format.binary64 (m * 5 ^ (-e).toNat) e)) = _
    rw [ofScientific_fraction hf (by omega)]

/-- What is found on a grid was accepted. -/
theorem onGrid?_good {b : Binary64} {tie : Tie} {good : Decimal → Bool} {k : Int} {d : Decimal}
    (h : b.onGrid? tie good k = some d) : good d = true := by
  unfold Binary64.onGrid? at h
  dsimp only at h
  split at h
  · cases h
  · next hbelow _ => cases h; exact hbelow
  · next _ habove => cases h; exact habove
  · next hbelow habove =>
    split at h
    · cases h; exact hbelow
    · cases h; exact habove
    · cases h; exact habove
    · cases h
      split
      · exact hbelow
      · exact habove

/-- The shortest decimal reads back to the double. -/
theorem toFloat_shortest {s : Sign} {m : Nat} {e : Int} {hm : 0 < m} (tie : Tie)
    (h : x.toModel.unpack = .finite s m e hm) : (shortest tie x).unscaled.toFloat = x.abs := by
  unfold shortest
  dsimp only
  cases hfound : (List.range 17).findSome? fun (i : Nat) =>
      (Binary64.ofFloat x).onGrid? tie (fun d => d.unscaled.toFloat.toBits == x.abs.toBits)
        ((Binary64.ofFloat x).leading - i) with
  | none => exact toFloat_exact h
  | some d =>
    obtain ⟨i, -, hd⟩ := List.exists_of_findSome?_eq_some hfound
    have hgood := onGrid?_good hd
    have hbits : (d.unscaled.toFloat.toBits == x.abs.toBits) = true := hgood
    apply float_eq
    exact model_eq (beq_iff_eq.1 hbits)

/-! ## Signs -/

theorem roundWithAccuracy_unsigned (m : Nat) (e : Int) (a : Accuracy) :
    Unsigned (roundWithAccuracy Format.binary64 .positive m e a) := by
  unfold roundWithAccuracy
  dsimp only
  split <;> rfl

theorem ofScientific_unsigned (m : Nat) (e : Int) :
    Unsigned (UnpackedFloat.ofScientific Format.binary64 m e) := by
  unfold UnpackedFloat.ofScientific
  split
  · rfl
  split
  · rfl
  split
  · rfl
  split
  · exact roundWithAccuracy_unsigned _ _ _
  · exact roundWithAccuracy_unsigned _ _ _

/-- Decimals have no sign. -/
theorem toFloat_unsigned {d : Decimal} (h : d.toFloat.isFinite = true) :
    isNegative d.toFloat = false := by
  unfold Decimal.toFloat at h ⊢
  split
  · next hbig =>
    rw [if_pos hbig] at h
    cases h
  · exact negative_pack (ofScientific_unsigned _ _)

end Doubles

end Quadrature
