import Mathlib
import Quadrature.Scalar.Binary64

/-!
# The fields of a double

A finite double is a sign, a mantissa and an exponent. `Binary64.ofFloat` reads them off
the bits as the logical model of doubles unpacks them (`ofFloat_of_unpack`), and packing
what was unpacked gives the double back (`pack_unpack`).
-/

namespace Quadrature

open Float.Model Float.Model.UnpackedFloat

/-- Mantissa and exponent of a finite double other than zero. -/
structure IsField (m : Nat) (e : Int) : Prop where
  pos : 0 < m
  mantissa : m < 2 ^ 53
  least : -1074 ≤ e
  greatest : e ≤ 971
  leading : 2 ^ 52 ≤ m ∨ e = -1074

/-! ## Bits -/

section Bits

variable (w : BitVec 64)

theorem toNat_unpackMantissa : (@unpackMantissa Format.binary64 w).toNat = w.toNat % 2 ^ 52 := by
  simp [unpackMantissa, BitVec.extractLsb]

theorem toNat_unpackExponent :
    (@unpackExponent Format.binary64 w).toNat = w.toNat / 2 ^ 52 % 2 ^ 11 := by
  simp [unpackExponent, BitVec.extractLsb, Nat.shiftRight_eq_div_pow]

theorem toNat_unpackSign : (@unpackSign Format.binary64 w).toNat = w.toNat / 2 ^ 63 := by
  have h := w.isLt
  simp [unpackSign, BitVec.extractLsb, Nat.shiftRight_eq_div_pow]
  omega

theorem toNat_packComponents (s : Sign) (e : BitVec 11) (m : BitVec 52) :
    (packComponents Format.binary64 s e m).toNat =
      s.toBitVec.toNat * 2 ^ 63 + e.toNat * 2 ^ 52 + m.toNat := by
  have he := e.isLt
  have hm := m.isLt
  simp only [packComponents, BitVec.toNat_append]
  rw [← Nat.shiftLeft_add_eq_or_of_lt he, ← Nat.shiftLeft_add_eq_or_of_lt hm]
  simp only [Nat.shiftLeft_eq]
  omega

/-- The sign that a double with the bits `w` unpacks to. -/
def signOf : Sign :=
  Sign.ofBitVec (@unpackSign Format.binary64 w)

theorem toNat_signOf : (signOf w).toBitVec.toNat = w.toNat / 2 ^ 63 := by
  rw [← toNat_unpackSign, signOf, Sign.ofBitVec]
  have h := (@unpackSign Format.binary64 w).isLt
  split
  · next h0 => rw [h0]; rfl
  · next h0 =>
    have h1 : (@unpackSign Format.binary64 w).toNat ≠ 0 := by
      intro h1
      exact h0 (BitVec.eq_of_toNat_eq h1)
    show 1 = _
    omega

theorem toNat_implicit (m : BitVec 52) : (1#1 ++ m).toNat = 2 ^ 52 + m.toNat := by
  rw [BitVec.toNat_append, ← Nat.shiftLeft_add_eq_or_of_lt m.isLt]
  simp [Nat.shiftLeft_eq]

variable {w}

theorem unpack_eq_zero {s : Sign} (h : UnpackedFloat.unpack Format.binary64 w = .zero s) :
    s = signOf w ∧ w.toNat / 2 ^ 52 % 2 ^ 11 = 0 ∧ w.toNat % 2 ^ 52 = 0 := by
  simp only [UnpackedFloat.unpack] at h
  split at h
  · split at h <;> cases h
  split at h
  · next hexp =>
    split at h
    · next hman =>
      cases h
      rw [← toNat_unpackExponent, ← toNat_unpackMantissa, hexp, hman]
      exact ⟨rfl, rfl, rfl⟩
    · cases h
  · cases h

theorem unpack_eq_infinity {s : Sign} (h : UnpackedFloat.unpack Format.binary64 w = .infinity s) :
    s = signOf w ∧ w.toNat / 2 ^ 52 % 2 ^ 11 = 2047 ∧ w.toNat % 2 ^ 52 = 0 := by
  simp only [UnpackedFloat.unpack] at h
  split at h
  · next hexp =>
    split at h
    · next hman =>
      cases h
      rw [← toNat_unpackExponent, ← toNat_unpackMantissa, hexp, hman]
      exact ⟨rfl, rfl, rfl⟩
    · cases h
  · split at h
    · split at h <;> cases h
    · cases h

theorem unpack_eq_notANumber (h : UnpackedFloat.unpack Format.binary64 w = .notANumber) :
    @unpackExponent Format.binary64 w = -1#_ ∧ @unpackMantissa Format.binary64 w ≠ 0#_ := by
  simp only [UnpackedFloat.unpack] at h
  split at h
  · next hexp =>
    split at h
    · cases h
    · next hman => exact ⟨hexp, hman⟩
  · split at h
    · split at h <;> cases h
    · cases h

theorem unpack_eq_finite {s : Sign} {m : Nat} {e : Int} {hm : 0 < m}
    (h : UnpackedFloat.unpack Format.binary64 w = .finite s m e hm) :
    s = signOf w ∧ w.toNat / 2 ^ 52 % 2 ^ 11 ≠ 2047 ∧
      (w.toNat / 2 ^ 52 % 2 ^ 11 = 0 ∧ m = w.toNat % 2 ^ 52 ∧ e = -1074 ∨
        w.toNat / 2 ^ 52 % 2 ^ 11 ≠ 0 ∧ m = 2 ^ 52 + w.toNat % 2 ^ 52 ∧
          e = (w.toNat / 2 ^ 52 % 2 ^ 11 : Nat) - 1075) := by
  simp only [UnpackedFloat.unpack] at h
  rw [← toNat_unpackExponent, ← toNat_unpackMantissa]
  split at h
  · split at h <;> cases h
  next hinf =>
  have hinf : (@unpackExponent Format.binary64 w).toNat ≠ 2047 := by
    intro h0
    exact hinf (BitVec.eq_of_toNat_eq h0)
  split at h
  · next hexp =>
    split at h
    · cases h
    · cases h
      refine ⟨rfl, hinf, .inl ⟨by rw [hexp]; rfl, rfl, ?_⟩⟩
      rw [hexp]
      rfl
  · next hexp =>
    have hexp : (@unpackExponent Format.binary64 w).toNat ≠ 0 := by
      intro h0
      exact hexp (BitVec.eq_of_toNat_eq h0)
    cases h
    exact ⟨rfl, hinf, .inr ⟨hexp, toNat_implicit _, rfl⟩⟩

end Bits

/-! ## Doubles -/

section Doubles

variable {x : Float} {s : Sign} {m : Nat} {e : Int} {hm : 0 < m}

/-- The fields as quotients and remainders of the bits. -/
theorem ofFloat_eq (x : Float) :
    Binary64.ofFloat x =
      (let n := x.toModel.toBits.toBitVec.toNat
      if n / 2 ^ 52 % 2 ^ 11 = 0 then ⟨n / 2 ^ 63 = 1, n % 2 ^ 52, -1074⟩
      else ⟨n / 2 ^ 63 = 1, 2 ^ 52 + n % 2 ^ 52, (n / 2 ^ 52 % 2 ^ 11 : Nat) - 1075⟩) := by
  have hE (b : UInt64) : ((b >>> 52) &&& 0x7FF).toNat = b.toBitVec.toNat / 2 ^ 52 % 2 ^ 11 := by
    rw [UInt64.toNat_and, UInt64.toNat_shiftRight, Nat.shiftRight_eq_div_pow]
    exact Nat.and_two_pow_sub_one_eq_mod _ 11
  have hM (b : UInt64) : (b &&& 0xFFFFFFFFFFFFF).toNat = b.toBitVec.toNat % 2 ^ 52 := by
    rw [UInt64.toNat_and]
    exact Nat.and_two_pow_sub_one_eq_mod _ 52
  have hS (b : UInt64) : (b >>> 63 == 1) = decide (b.toBitVec.toNat / 2 ^ 63 = 1) := by
    rw [Bool.eq_iff_iff, beq_iff_eq, decide_eq_true_eq, ← UInt64.toNat_inj,
      UInt64.toNat_shiftRight, Nat.shiftRight_eq_div_pow]
    rfl
  simp only [Binary64.ofFloat, hE, hM, hS]
  rfl

theorem isNegative_iff : (Binary64.ofFloat x).negative = true ↔
    signOf x.toModel.toBits.toBitVec = .negative := by
  have h0 := toNat_signOf x.toModel.toBits.toBitVec
  have h1 : (Binary64.ofFloat x).negative =
      decide (x.toModel.toBits.toBitVec.toNat / 2 ^ 63 = 1) := by
    rw [ofFloat_eq]
    dsimp only
    split <;> rfl
  rw [h1, decide_eq_true_eq, ← h0]
  cases signOf x.toModel.toBits.toBitVec with
  | negative => exact ⟨fun _ => rfl, fun _ => rfl⟩
  | positive => constructor <;> intro h <;> cases h

theorem ofFloat_of_unpack (h : x.toModel.unpack = .finite s m e hm) :
    (Binary64.ofFloat x).mantissa = m ∧ (Binary64.ofFloat x).exponent = e := by
  obtain ⟨-, -, ⟨hE, hM, he⟩ | ⟨hE, hM, he⟩⟩ := unpack_eq_finite h
  · rw [ofFloat_eq]
    dsimp only
    rw [if_pos hE]
    exact ⟨hM.symm, he.symm⟩
  · rw [ofFloat_eq]
    dsimp only
    rw [if_neg hE]
    exact ⟨hM.symm, he.symm⟩

theorem isField_of_unpack (h : x.toModel.unpack = .finite s m e hm) : IsField m e := by
  obtain ⟨-, hinf, hfield⟩ := unpack_eq_finite h
  have hE := Nat.mod_lt (x.toModel.toBits.toBitVec.toNat / 2 ^ 52) (Nat.two_pow_pos 11)
  have hM := Nat.mod_lt x.toModel.toBits.toBitVec.toNat (Nat.two_pow_pos 52)
  refine ⟨hm, ?_, ?_, ?_, ?_⟩ <;> omega

theorem targetExponent_eq (t : Int) :
    Format.binary64.targetExponent t = max (t - 53) (-1074) := rfl

/-- The exponent at which a field's leading bit asks to be stored is its own. -/
theorem IsField.targetExponent (h : IsField m e) :
    Format.binary64.targetExponent (totalExponent m e) = e := by
  have hne : m ≠ 0 := Nat.ne_of_gt h.pos
  have hlt : m.log2 < 53 := (Nat.log2_lt hne).2 h.mantissa
  have hlead : 52 ≤ m.log2 ∨ e = -1074 := h.leading.imp_left (Nat.le_log2 hne).2
  have hleast := h.least
  rw [targetExponent_eq, totalExponent]
  omega

theorem toNat_pack_zero : (UnpackedFloat.pack Format.binary64 (.zero s)).toNat =
    s.toBitVec.toNat * 2 ^ 63 := by
  show (packComponents Format.binary64 s 0 0).toNat = _
  rw [toNat_packComponents]
  simp

theorem toNat_pack_infinity : (UnpackedFloat.pack Format.binary64 (.infinity s)).toNat =
    s.toBitVec.toNat * 2 ^ 63 + 2047 * 2 ^ 52 := by
  have hexp : (-1#11 : BitVec 11).toNat = 2047 := by decide
  show (packComponents Format.binary64 s (-1#_) 0).toNat = _
  rw [toNat_packComponents, hexp]
  simp

theorem toNat_pack_finite (h : IsField m e) :
    (UnpackedFloat.pack Format.binary64 (.finite s m e hm)).toNat =
      s.toBitVec.toNat * 2 ^ 63 + (if 2 ^ 52 ≤ m then (e + 1075).toNat * 2 ^ 52 else 0) +
        m % 2 ^ 52 := by
  have hne : m ≠ 0 := Nat.ne_of_gt h.pos
  have hlt : m.log2 < 53 := (Nat.log2_lt hne).2 h.mantissa
  have hlog : 52 ≤ m.log2 ↔ 2 ^ 52 ≤ m := Nat.le_log2 hne
  obtain ⟨-, -, hleast, hgreatest, -⟩ := h
  have hbias : (e + (Format.binary64.exponentBias : Nat) +
      (Format.binary64.mantissaBitsWithoutImplicit : Nat)).toNat = (e + 1075).toNat := by
    have h1 : Format.binary64.exponentBias = 1023 := rfl
    have h2 : Format.binary64.mantissaBitsWithoutImplicit = 52 := rfl
    omega
  have hbits : Format.binary64.mantissaBits = 53 := rfl
  rw [UnpackedFloat.pack]
  simp only [hbias, hbits]
  rw [if_neg (by omega)]
  by_cases hnormal : 2 ^ 52 ≤ m
  · rw [if_pos hnormal, if_pos (by omega), toNat_packComponents, BitVec.toNat_ofNat,
      BitVec.toNat_ofNat, Nat.mod_eq_of_lt (by omega : (e + 1075).toNat < 2 ^ 11)]
  · rw [if_neg hnormal, if_neg (by omega), toNat_packComponents, BitVec.toNat_ofNat]
    rfl

theorem model_eq {a b : Float.Model} (h : a.toBits = b.toBits) : a = b := by
  cases a
  cases b
  cases h
  rfl

/-- Packing restores every double; what is not a number has one encoding. -/
theorem pack_unpack (x : Float) : Float.Model.pack x.toModel.unpack = x.toModel := by
  refine model_eq (UInt64.toBitVec_inj.1 ?_)
  show UnpackedFloat.pack Format.binary64 x.toModel.unpack = x.toModel.toBits.toBitVec
  have hlt := x.toModel.toBits.toBitVec.isLt
  have hs := toNat_signOf x.toModel.toBits.toBitVec
  cases hu : x.toModel.unpack with
  | notANumber =>
    obtain ⟨hexp, hman⟩ := unpack_eq_notANumber hu
    exact (x.toModel.valid.eq_packedNaN hexp hman).symm
  | infinity s =>
    obtain ⟨rfl, hE, hM⟩ := unpack_eq_infinity hu
    refine BitVec.eq_of_toNat_eq ?_
    rw [toNat_pack_infinity, hs]
    omega
  | zero s =>
    obtain ⟨rfl, hE, hM⟩ := unpack_eq_zero hu
    refine BitVec.eq_of_toNat_eq ?_
    rw [toNat_pack_zero, hs]
    omega
  | finite s m e hm =>
    have hf := isField_of_unpack hu
    refine BitVec.eq_of_toNat_eq ?_
    obtain ⟨rfl, -, ⟨hE, hm, he⟩ | ⟨hE, hm, he⟩⟩ := unpack_eq_finite hu
    · rw [toNat_pack_finite hf, hs, if_neg (by omega)]
      omega
    · rw [toNat_pack_finite hf, hs, if_pos (by omega)]
      omega

theorem float_eq {y : Float} (h : x.toModel = y.toModel) : x = y := by
  cases x
  cases y
  cases h
  rfl

/-! ## Signs -/

theorem toNat_packComponents_div (e : BitVec 11) (m : BitVec 52) :
    (packComponents Format.binary64 s e m).toNat / 2 ^ 63 = s.toBitVec.toNat := by
  have he := e.isLt
  have hm := m.isLt
  rw [toNat_packComponents]
  omega

/-- Without a minus sign. -/
def Unsigned : UnpackedFloat → Prop
  | .notANumber => True
  | .infinity s | .zero s | .finite s _ _ _ => s = .positive

theorem negative_pack {u : UnpackedFloat} (h : Unsigned u) :
    (Binary64.ofFloat (.ofModel (.pack u))).negative = false := by
  have hdiv : (UnpackedFloat.pack Format.binary64 u).toNat / 2 ^ 63 = 0 := by
    cases u with
    | notANumber => exact toNat_packComponents_div _ _
    | infinity s | zero s =>
      obtain rfl : s = .positive := h
      exact toNat_packComponents_div _ _
    | finite s m e hm =>
      obtain rfl : s = .positive := h
      rw [UnpackedFloat.pack]
      dsimp only
      split
      · exact toNat_packComponents_div _ _
      · split <;> exact toNat_packComponents_div _ _
  rw [Bool.eq_false_iff]
  intro hneg
  rw [isNegative_iff] at hneg
  have h0 := toNat_signOf (UnpackedFloat.pack Format.binary64 u)
  have h1 : signOf (UnpackedFloat.pack Format.binary64 u) = .negative := hneg
  rw [h1, hdiv] at h0
  cases h0

theorem unsigned_unpack (h : (Binary64.ofFloat x).negative = false) (hx : x.isFinite = true) :
    Unsigned x.toModel.unpack := by
  have hsign : signOf x.toModel.toBits.toBitVec = .positive := by
    cases hs : signOf x.toModel.toBits.toBitVec with
    | positive => rfl
    | negative =>
      rw [isNegative_iff.2 hs] at h
      cases h
  have hfin : x.toModel.unpack.isFinite = true := hx
  cases hu : x.toModel.unpack with
  | notANumber => trivial
  | infinity => rw [hu] at hfin; cases hfin
  | zero s => exact (unpack_eq_zero hu).1.trans hsign
  | finite s m e hm => exact (unpack_eq_finite hu).1.trans hsign

theorem abs_of_unsigned (hx : x.isFinite = true) (h : (Binary64.ofFloat x).negative = false) :
    x.abs = x := by
  have hu : x.toModel.unpack.abs = x.toModel.unpack := by
    have hpos := unsigned_unpack h hx
    cases hu : x.toModel.unpack with
    | notANumber => rfl
    | infinity s | zero s | finite s =>
      rw [hu] at hpos
      obtain rfl : s = .positive := hpos
      rfl
  apply float_eq
  show Float.Model.pack x.toModel.unpack.abs = _
  rw [hu, pack_unpack]

theorem isFinite_iff :
    x.isFinite = true ↔ x.toModel.toBits.toBitVec.toNat / 2 ^ 52 % 2 ^ 11 ≠ 2047 := by
  rw [← toNat_unpackExponent]
  show (UnpackedFloat.unpack Format.binary64 x.toModel.toBits.toBitVec).isFinite = true ↔ _
  simp only [UnpackedFloat.unpack]
  split
  · next hinf =>
    rw [hinf]
    split <;> simp [UnpackedFloat.isFinite]
  · next hinf =>
    have hne : (@unpackExponent Format.binary64 x.toModel.toBits.toBitVec).toNat ≠ 2047 := by
      intro h0
      exact hinf (BitVec.eq_of_toNat_eq h0)
    refine ⟨fun _ => hne, fun _ => ?_⟩
    split
    · split <;> rfl
    · rfl

theorem abs_eq_zero (h : x.toModel.unpack = .zero s) :
    x.abs = .ofModel (.pack (.zero .positive)) := by
  apply float_eq
  show Float.Model.pack x.toModel.unpack.abs = _
  rw [h]
  rfl

theorem abs_eq_finite (h : x.toModel.unpack = .finite s m e hm) :
    x.abs = .ofModel (.pack (.finite .positive m e hm)) := by
  apply float_eq
  show Float.Model.pack x.toModel.unpack.abs = _
  rw [h]
  rfl

theorem isFinite_abs (hx : x.isFinite = true) : x.abs.isFinite = true := by
  have hfin : x.toModel.unpack.isFinite = true := hx
  cases hu : x.toModel.unpack with
  | infinity | notANumber => rw [hu] at hfin; cases hfin
  | zero s =>
    rw [abs_eq_zero hu]
    rfl
  | finite s m e hm =>
    have hf := isField_of_unpack hu
    have hbits := @toNat_pack_finite .positive m e hm hf
    have hgreatest := hf.greatest
    have hlt : m % 2 ^ 52 < 2 ^ 52 := Nat.mod_lt _ (Nat.two_pow_pos 52)
    rw [abs_eq_finite hu, isFinite_iff]
    show (UnpackedFloat.pack Format.binary64 (.finite .positive m e hm)).toNat / 2 ^ 52 % 2 ^ 11 ≠ 2047
    rw [hbits]
    show (0 * 2 ^ 63 + _ + _) / _ % _ ≠ _
    split <;> omega

/-! ## Comparison -/

theorem beq_iff {y : Float} :
    (x == y) = true ↔ x.toModel.unpack.compare y.toModel.unpack = some .eq := by
  show (x.toModel.unpack.compare y.toModel.unpack == some .eq) = true ↔ _
  rw [beq_iff_eq]

theorem beq_self (hx : x.isFinite = true) : (x == x) = true := by
  have hfin : x.toModel.unpack.isFinite = true := hx
  rw [beq_iff]
  cases hu : x.toModel.unpack with
  | notANumber | infinity => rw [hu] at hfin; cases hfin
  | zero => rfl
  | finite s m e hm => cases s <;> simp [UnpackedFloat.compare]

/-- Equal doubles are finite together and have the same fields up to the sign of zero. -/
theorem unpack_of_beq {y : Float} (h : (x == y) = true) (hy : y.isFinite = true) :
    x.isFinite = true ∧ (x.toModel.unpack = y.toModel.unpack ∨
      ∃ s s', x.toModel.unpack = .zero s ∧ y.toModel.unpack = .zero s') := by
  have hfin : y.toModel.unpack.isFinite = true := hy
  show x.toModel.unpack.isFinite = true ∧ _
  rw [beq_iff] at h
  generalize x.toModel.unpack = u at h
  generalize y.toModel.unpack = v at h hfin
  cases v with
  | notANumber | infinity => cases hfin
  | zero s' =>
    cases u with
    | notANumber => cases h
    | infinity s => cases s <;> cases h
    | zero s => exact ⟨rfl, .inr ⟨s, s', rfl, rfl⟩⟩
    | finite s => cases s <;> cases h
  | finite s' m' e' hm' =>
    cases u with
    | notANumber => cases h
    | infinity s => cases s <;> cases h
    | zero s => cases s' <;> cases h
    | finite s m e hm =>
      refine ⟨rfl, .inl ?_⟩
      cases s <;> cases s' <;>
        simp [UnpackedFloat.compare, Ordering.then_eq_eq] at h ⊢ <;> exact ⟨h.2, h.1⟩

theorem beq_trans {y z : Float} (hxy : (x == y) = true) (hyz : (y == z) = true)
    (hz : z.isFinite = true) : (x == z) = true := by
  obtain ⟨hy, hu | ⟨s, s', hs, hs'⟩⟩ := unpack_of_beq hyz hz
  · rw [beq_iff, hu] at hxy
    exact beq_iff.2 hxy
  · obtain ⟨-, hu | ⟨t, t', ht, -⟩⟩ := unpack_of_beq hxy hy
    · rw [beq_iff, hu, hs, hs']
      rfl
    · rw [beq_iff, ht, hs']
      rfl

theorem le_self (hx : x.isFinite = true) : x ≤ x := by
  have h : x.toModel.unpack.le x.toModel.unpack = true := by
    rw [UnpackedFloat.le, beq_iff.1 (beq_self hx)]
    rfl
  exact decide_eq_true h

theorem unpack_zero : (0.0 : Float).toModel.unpack = .zero .positive := by rfl

theorem beq_zero_iff : (x == 0.0) = true ↔ ∃ s, x.toModel.unpack = .zero s := by
  constructor
  · intro h
    obtain ⟨-, hu | ⟨s, -, hu, -⟩⟩ := unpack_of_beq h (by rfl)
    · exact ⟨_, hu.trans unpack_zero⟩
    · exact ⟨s, hu⟩
  · rintro ⟨s, hu⟩
    rw [beq_iff, hu, unpack_zero]
    rfl

end Doubles

end Quadrature
