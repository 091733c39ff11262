import Mathlib
import Quadrature.Proofs.Scalar.Packing

/-!
# The numbers that doubles stand for

Packing keeps the fields of a finite double (`unpack_pack_finite`), and what is too large
becomes an infinity. A finite double stands for the rational number of its fields, and
finite doubles are ordered as these numbers are (`le_iff`, `lt_iff`).
-/

namespace Quadrature

open Float.Model Float.Model.UnpackedFloat

/-! ## Packing and unpacking -/

section Unpacking

variable {s : Sign} {m : Nat} {e : Int} {hm : 0 < m}

theorem signOf_eq {w : BitVec 64} (h : w.toNat / 2 ^ 63 = s.toBitVec.toNat) : signOf w = s := by
  have hbits : (signOf w).toBitVec = s.toBitVec :=
    BitVec.eq_of_toNat_eq ((toNat_signOf w).trans h)
  rw [← Sign.ofBitVec_toBitVec (signOf w), hbits, Sign.ofBitVec_toBitVec]

theorem unpack_pack_zero : (Float.Model.pack (.zero s)).unpack = .zero s := by
  cases s <;> rfl

theorem unpack_pack_infinity : (Float.Model.pack (.infinity s)).unpack = .infinity s := by
  cases s <;> rfl

theorem unpack_pack_overflow (h : 971 < e) :
    (Float.Model.pack (.finite s m e hm)).unpack = .infinity s := by
  have hpack : UnpackedFloat.pack Format.binary64 (.finite s m e hm) =
      packedInfinity Format.binary64 s := by
    have hbias : (Format.binary64.exponentBias : Int) = 1023 := rfl
    have hwidth : (Format.binary64.mantissaBitsWithoutImplicit : Int) = 52 := rfl
    rw [UnpackedFloat.pack]
    dsimp only
    rw [hbias, hwidth, if_pos]
    show 2048 ≤ _
    omega
  show UnpackedFloat.unpack Format.binary64 (UnpackedFloat.pack Format.binary64 _) = _
  rw [hpack]
  exact unpack_pack_infinity

/-- Finite fields are found again. -/
theorem unpack_pack_finite (h : IsField m e) :
    (Float.Model.pack (.finite s m e hm)).unpack = .finite s m e hm := by
  have hbits := @toNat_pack_finite s m e hm h
  obtain ⟨hpos, hlt, hleast, hgreatest, hleading⟩ := h
  have hsign := s.toBitVec.isLt
  have hfin : (Float.Model.pack (.finite s m e hm)).unpack.isFinite = true := by
    refine (isFinite_iff (x := .ofModel (.pack (.finite s m e hm)))).2 ?_
    show (UnpackedFloat.pack Format.binary64 (.finite s m e hm)).toNat / 2 ^ 52 % 2 ^ 11 ≠ 2047
    rw [hbits]
    split <;> omega
  change (UnpackedFloat.unpack Format.binary64 (UnpackedFloat.pack _ _)).isFinite = true at hfin
  show UnpackedFloat.unpack Format.binary64 (UnpackedFloat.pack Format.binary64 _) = _
  generalize UnpackedFloat.pack Format.binary64 (.finite s m e hm) = w at hbits hfin
  have hs : signOf w = s := by
    apply signOf_eq
    split at hbits <;> omega
  cases hu : UnpackedFloat.unpack Format.binary64 w with
  | notANumber | infinity => rw [hu] at hfin; cases hfin
  | zero s' =>
    obtain ⟨-, hE, hM⟩ := unpack_eq_zero hu
    split at hbits <;> omega
  | finite s' m' e' hm' =>
    obtain ⟨rfl, -, hfield⟩ := unpack_eq_finite hu
    have hm : m' = m := by split at hbits <;> omega
    have he : e' = e := by split at hbits <;> omega
    subst hm he
    rw [hs]

end Unpacking

/-! ## Values -/

/-- A number with a sign put before it. -/
def signed : Sign → ℚ → ℚ
  | .positive, q => q
  | .negative, q => -q

/-- The number that an unpacked double stands for; zero if it is not finite. -/
def numberOf : UnpackedFloat → ℚ
  | .finite s m e _ => signed s (m * 2 ^ e)
  | _ => 0

section Values

variable {x y : Float} {s : Sign} {m : Nat} {e : Int} {hm : 0 < m}

theorem value_eq (hx : x.isFinite = true) : Scalar.value x = numberOf x.toModel.unpack := by
  have hfin : x.toModel.unpack.isFinite = true := hx
  show (Binary64.ofFloat x).toRat = _
  cases hu : x.toModel.unpack with
  | notANumber | infinity => rw [hu] at hfin; cases hfin
  | zero s =>
    obtain ⟨-, hE, hM⟩ := unpack_eq_zero hu
    have hzero : (Binary64.ofFloat x).mantissa = 0 := by
      rw [ofFloat_eq]
      dsimp only
      rw [if_pos hE]
      exact hM
    simp [Binary64.toRat, hzero, numberOf]
  | finite s m e hm =>
    obtain ⟨hman, hexp⟩ := ofFloat_of_unpack hu
    have hs := (unpack_eq_finite hu).1
    rw [Binary64.toRat, hman, hexp, numberOf]
    cases s with
    | positive =>
      have hneg : (Binary64.ofFloat x).negative = false := by
        rw [Bool.eq_false_iff]
        intro h
        rw [isNegative_iff.1 h] at hs
        cases hs
      simp [hneg, signed]
    | negative =>
      have hneg : (Binary64.ofFloat x).negative = true := isNegative_iff.2 hs.symm
      simp [hneg, signed]

theorem value_finite (h : x.toModel.unpack = .finite s m e hm) :
    x.isFinite = true ∧ Scalar.value x = signed s (m * 2 ^ e) := by
  have hx : x.isFinite = true := by
    show x.toModel.unpack.isFinite = true
    rw [h]
    rfl
  rw [value_eq hx, h]
  exact ⟨hx, rfl⟩

theorem value_zero (h : x.toModel.unpack = .zero s) :
    x.isFinite = true ∧ Scalar.value x = 0 := by
  have hx : x.isFinite = true := by
    show x.toModel.unpack.isFinite = true
    rw [h]
    rfl
  rw [value_eq hx, h]
  exact ⟨hx, rfl⟩

/-- The fields of a finite double, zero included. -/
theorem exists_field (hx : x.isFinite = true) :
    (∃ s, x.toModel.unpack = .zero s) ∨
      ∃ s m e hm, x.toModel.unpack = .finite s m e hm ∧ IsField m e := by
  have hfin : x.toModel.unpack.isFinite = true := hx
  cases hu : x.toModel.unpack with
  | notANumber | infinity => rw [hu] at hfin; cases hfin
  | zero s => exact .inl ⟨s, rfl⟩
  | finite s m e hm => exact .inr ⟨s, m, e, hm, rfl, isField_of_unpack hu⟩

theorem compare_magnitude {m' : Nat} {e' : Int} (h : IsField m e) (h' : IsField m' e') :
    (compare e e').then (compare m m') = compare ((m : ℚ) * 2 ^ e) (m' * 2 ^ e') := by
  -- a greater exponent goes with a mantissa that has its leading bit
  have hlt {m m' : Nat} {e e' : Int} (h : IsField m e) (h' : IsField m' e') (he : e < e') :
      (m : ℚ) * 2 ^ e < m' * 2 ^ e' := by
    have hlead : 2 ^ 52 ≤ m' := h'.leading.resolve_right fun h0 => by have := h.least; omega
    calc (m : ℚ) * 2 ^ e < 2 ^ 53 * 2 ^ e := by
          have := h.mantissa
          gcongr
          exact_mod_cast this
      _ = 2 ^ 52 * 2 ^ (e + 1) := by rw [zpow_add_one₀ (by norm_num)]; ring
      _ ≤ m' * 2 ^ e' := by
          gcongr
          · exact_mod_cast hlead
          · norm_num
          · omega
  rcases lt_trichotomy e e' with he | rfl | he
  · rw [compare_lt_iff_lt.2 he, compare_lt_iff_lt.2 (hlt h h' he)]
    rfl
  · have hpos : (0 : ℚ) < 2 ^ e := by positivity
    rw [compare_eq_iff_eq.2 rfl]
    rcases lt_trichotomy m m' with hm | rfl | hm
    · rw [compare_lt_iff_lt.2 hm, compare_lt_iff_lt.2 (mul_lt_mul_of_pos_right (by exact_mod_cast hm) hpos)]
      rfl
    · rw [compare_eq_iff_eq.2 rfl, compare_eq_iff_eq.2 rfl]
      rfl
    · rw [compare_gt_iff_gt.2 hm, compare_gt_iff_gt.2 (mul_lt_mul_of_pos_right (by exact_mod_cast hm) hpos)]
      rfl
  · rw [compare_gt_iff_gt.2 he, compare_gt_iff_gt.2 (hlt h' h he)]
    rfl

theorem numberOf_positive : 0 < numberOf (.finite .positive m e hm) := by
  simp only [numberOf, signed]
  positivity

theorem numberOf_negative : numberOf (.finite .negative m e hm) < 0 := by
  have hpos : (0 : ℚ) < m * 2 ^ e := by positivity
  simpa [numberOf, signed] using hpos

theorem compare_eq (hx : x.isFinite = true) (hy : y.isFinite = true) :
    x.toModel.unpack.compare y.toModel.unpack =
      some (compare (Scalar.value x) (Scalar.value y)) := by
  have hfx : x.toModel.unpack.isFinite = true := hx
  have hfy : y.toModel.unpack.isFinite = true := hy
  rw [value_eq hx, value_eq hy]
  cases hu : x.toModel.unpack with
  | notANumber | infinity => rw [hu] at hfx; cases hfx
  | zero s =>
    cases hv : y.toModel.unpack with
    | notANumber | infinity => rw [hv] at hfy; cases hfy
    | zero s' => exact congrArg some (compare_eq_iff_eq.2 rfl).symm
    | finite s' =>
      cases s' with
      | positive => exact congrArg some (compare_lt_iff_lt.2 numberOf_positive).symm
      | negative => exact congrArg some (compare_gt_iff_gt.2 numberOf_negative).symm
  | finite s m e hm =>
    cases hv : y.toModel.unpack with
    | notANumber | infinity => rw [hv] at hfy; cases hfy
    | zero s' =>
      cases s with
      | positive => exact congrArg some (compare_gt_iff_gt.2 numberOf_positive).symm
      | negative => exact congrArg some (compare_lt_iff_lt.2 numberOf_negative).symm
    | finite s' m' e' hm' =>
      have hmagnitude := compare_magnitude (isField_of_unpack hu) (isField_of_unpack hv)
      cases s with
      | positive =>
        cases s' with
        | positive =>
          show some _ = some (compare ((m : ℚ) * 2 ^ e) (m' * 2 ^ e'))
          rw [hmagnitude]
        | negative => exact congrArg some (compare_gt_iff_gt.2 (numberOf_negative.trans numberOf_positive)).symm
      | negative =>
        cases s' with
        | positive => exact congrArg some (compare_lt_iff_lt.2 (numberOf_negative.trans numberOf_positive)).symm
        | negative =>
          have hneg (a b : ℚ) : (compare a b).swap = compare (-a) (-b) := by
            rcases lt_trichotomy a b with h | rfl | h
            · rw [compare_lt_iff_lt.2 h, compare_gt_iff_gt.2 (neg_lt_neg h)]
              rfl
            · rw [compare_eq_iff_eq.2 rfl, compare_eq_iff_eq.2 rfl]
              rfl
            · rw [compare_gt_iff_gt.2 h, compare_lt_iff_lt.2 (neg_lt_neg h)]
              rfl
          simp only [UnpackedFloat.compare, numberOf, signed, hmagnitude, hneg]

theorem le_iff_unpack : x ≤ y ↔ x.toModel.unpack.le y.toModel.unpack = true := by
  show decide (_ = true) = true ↔ _
  exact decide_eq_true_iff

theorem le_iff (hx : x.isFinite = true) (hy : y.isFinite = true) :
    x ≤ y ↔ Scalar.value x ≤ Scalar.value y := by
  rw [le_iff_unpack, UnpackedFloat.le, compare_eq hx hy, ← compare_le_iff_le]
  simp [Ordering.isLE_iff_ne_gt]

theorem lt_iff (hx : x.isFinite = true) (hy : y.isFinite = true) :
    x < y ↔ Scalar.value x < Scalar.value y := by
  have h : x < y ↔ x.toModel.unpack.lt y.toModel.unpack = true := by
    show decide (_ = true) = true ↔ _
    exact decide_eq_true_iff
  rw [h, UnpackedFloat.lt, compare_eq hx hy, ← compare_lt_iff_lt]
  simp

/-- Doubles that compare equal have one value, also the two zeros. -/
theorem value_eq_of_beq (h : (x == y) = true) (hy : y.isFinite = true) :
    x.isFinite = true ∧ Scalar.value x = Scalar.value y := by
  have hx := (unpack_of_beq h hy).1
  rw [beq_iff, compare_eq hx hy, Option.some.injEq, compare_eq_iff_eq] at h
  exact ⟨hx, h⟩

theorem le_of_lt_double (h : x < y) : x ≤ y := by
  have h : x.toModel.unpack.lt y.toModel.unpack = true := of_decide_eq_true h
  rw [le_iff_unpack]
  unfold UnpackedFloat.lt at h
  unfold UnpackedFloat.le
  generalize x.toModel.unpack.compare y.toModel.unpack = c at h ⊢
  cases c with
  | none => cases h
  | some o =>
    cases o with
    | lt => rfl
    | eq | gt => cases h

/-! ## Doubles that are not finite -/

theorem le_infinity (hx : x.isFinite = true) (hy : y.toModel.unpack = .infinity .positive) :
    x ≤ y := by
  have hfin : x.toModel.unpack.isFinite = true := hx
  rw [le_iff_unpack, hy]
  cases hu : x.toModel.unpack with
  | notANumber | infinity => rw [hu] at hfin; cases hfin
  | zero => rfl
  | finite s => cases s <;> rfl

theorem infinity_le (hx : x.toModel.unpack = .infinity .negative) (hy : y.isFinite = true) :
    x ≤ y := by
  have hfin : y.toModel.unpack.isFinite = true := hy
  rw [le_iff_unpack, hx]
  cases hu : y.toModel.unpack with
  | notANumber | infinity => rw [hu] at hfin; cases hfin
  | zero => rfl
  | finite s => cases s <;> rfl

theorem isNaN_of_isFinite (hx : x.isFinite = true) : x.isNaN = false := by
  have hfin : x.toModel.unpack.isFinite = true := hx
  show x.toModel.unpack.isNaN = false
  cases hu : x.toModel.unpack with
  | notANumber => rw [hu] at hfin; cases hfin
  | infinity | zero | finite => rfl

/-- What finite doubles enclose is finite. -/
theorem isFinite_of_le {a b : Float} (ha : a.isFinite = true) (hb : b.isFinite = true)
    (hax : a ≤ x) (hxb : x ≤ b) : x.isFinite = true := by
  have hfa : a.toModel.unpack.isFinite = true := ha
  have hfb : b.toModel.unpack.isFinite = true := hb
  rw [le_iff_unpack] at hax hxb
  show x.toModel.unpack.isFinite = true
  generalize a.toModel.unpack = u at hfa hax
  generalize b.toModel.unpack = v at hfb hxb
  generalize x.toModel.unpack = w at hax hxb
  cases w with
  | zero | finite => rfl
  | notANumber => cases u <;> cases hax
  | infinity s =>
    cases s with
    | positive =>
      cases v with
      | notANumber | infinity => cases hfb
      | zero | finite => cases hxb
    | negative =>
      cases u with
      | notANumber | infinity => cases hfa
      | zero => cases hax
      | finite s' => cases s' <;> cases hax

theorem isNaN_of_le (h : x ≤ y) : x.isNaN = false ∧ y.isNaN = false := by
  rw [le_iff_unpack] at h
  show x.toModel.unpack.isNaN = false ∧ y.toModel.unpack.isNaN = false
  generalize x.toModel.unpack = u at h
  generalize y.toModel.unpack = v at h
  cases u with
  | notANumber => cases h
  | infinity s | zero s | finite s =>
    cases v with
    | notANumber => cases s <;> cases h
    | infinity | zero | finite => exact ⟨rfl, rfl⟩

end Values

end Quadrature
