import Mathlib
import Quadrature.Derivative
import Quadrature.Proofs.Scalar.Cancellation
import Quadrature.Rule.Error

/-!
# Derivative bounds of constants

The differences of a constant are formed by rounded operations from left to right. Twice a
constant is exact, so the second difference is zero. In the fourth difference three times the
constant is rounded, and what that takes away is left over at the end (`value_fourthSum`). Main
statement: `bounds_constant`.
-/

namespace Quadrature

/-! ## Grids with one value -/

section Grids

variable {a b v : Float} {steps : ℕ} {o : Option Float}

theorem raise_of_not_isFinite (h : ¬ v.isFinite = true) : raise b (some v) = b := by
  rw [raise, if_neg]
  exact fun hcondition => h (Bool.and_eq_true_iff.1 hcondition).1

/-- A value counts unless it is zero. -/
theorem raise_zero (h : v.isFinite = true) :
    raise 0.0 (some v) = if Scalar.value v = 0 then 0.0 else v.abs := by
  obtain ⟨habs, hvalue⟩ := value_abs h
  obtain ⟨hzero, hzeroValue⟩ := value_literal_zero
  have hlt : (0.0 : Float) < v.abs ↔ Scalar.value v ≠ 0 := by
    rw [lt_iff hzero habs, hzeroValue, hvalue, abs_pos]
  have hfinite : Scalar.isFinite v = true := h
  show (if (Scalar.isFinite v && decide ((0.0 : Float) < v.abs)) = true then v.abs else 0.0) = _
  by_cases hv : Scalar.value v = 0
  · rw [if_pos hv, if_neg]
    exact fun hcondition => hlt.1 (of_decide_eq_true (Bool.and_eq_true_iff.1 hcondition).2) hv
  · rw [if_neg hv, if_pos]
    exact Bool.and_eq_true_iff.2 ⟨hfinite, decide_eq_true (hlt.2 hv)⟩

theorem raise_zero_eq_iff (h : v.isFinite = true) :
    raise 0.0 (some v) = 0.0 ↔ Scalar.value v = 0 := by
  rw [raise_zero h]
  refine ⟨fun heq => ?_, fun hv => if_pos hv⟩
  by_contra hv
  rw [if_neg hv] at heq
  have hvalue := (value_abs h).2
  rw [heq, value_literal_zero.2] at hvalue
  exact hv (abs_nonpos_iff.1 hvalue.ge)

theorem raise_raise : raise (raise 0.0 o) o = raise 0.0 o := by
  cases o with
  | none => rfl
  | some v =>
    by_cases h : v.isFinite = true
    · have habs := (value_abs h).1
      have hself : ¬ v.abs < v.abs := fun hlt => lt_irrefl _ ((lt_iff habs habs).1 hlt)
      rw [raise_zero h]
      by_cases hv : Scalar.value v = 0
      · rw [if_pos hv, raise_zero h, if_pos hv]
      · rw [if_neg hv, raise, if_neg]
        exact fun hcondition => hself (of_decide_eq_true (Bool.and_eq_true_iff.1 hcondition).2)
    · rw [raise_of_not_isFinite h, raise_of_not_isFinite h]

theorem greatestOn_constant : greatestOn a b steps (fun _ => o) = raise 0.0 o := by
  rw [greatestOn, List.range_succ_eq_map, List.foldl_cons]
  exact List.foldl_fixed' (fun _ => raise_raise) _

end Grids

/-! ## Differences of a constant -/

/-- What the second difference of a constant divides. -/
def secondSum (c : Float) : Float :=
  c - 2.0 * c + c

/-- The two terms of the fourth difference that come to three times the constant. -/
def threefold (c : Float) : Float :=
  c - 4.0 * c + 6.0 * c

/-- What the fourth difference of a constant divides. -/
def fourthSum (c : Float) : Float :=
  threefold c - 4.0 * c + c

section Literals

theorem value_literal_two : (2.0 : Float).isFinite = true ∧ Scalar.value (2.0 : Float) = 2 := by
  have hu : (2.0 : Float).toModel.unpack = .finite .positive (2 ^ 52) (-51) (by norm_num) := by rfl
  exact value_literal hu (by norm_num)

theorem value_literal_four : (4.0 : Float).isFinite = true ∧ Scalar.value (4.0 : Float) = 4 := by
  have hu : (4.0 : Float).toModel.unpack = .finite .positive (2 ^ 52) (-50) (by norm_num) := by rfl
  exact value_literal hu (by norm_num)

theorem value_literal_six : (6.0 : Float).isFinite = true ∧ Scalar.value (6.0 : Float) = 6 := by
  have hu : (6.0 : Float).toModel.unpack = .finite .positive (3 * 2 ^ 51) (-50) (by norm_num) := by
    rfl
  exact value_literal hu (by norm_num)

end Literals

section Closeness

variable {q a b t ε : ℚ}

theorem sum_close (ha : |a - -(3 * q)| ≤ 3 * |q| * ε) (hb : |b - 6 * q| ≤ 6 * |q| * ε) :
    |a + b - 3 * q| ≤ 9 * |q| * ε := by
  have hsplit : a + b - 3 * q = (a - -(3 * q)) + (b - 6 * q) := by ring
  calc |a + b - 3 * q| ≤ |a - -(3 * q)| + |b - 6 * q| := hsplit ▸ abs_add_le _ _
    _ ≤ 3 * |q| * ε + 6 * |q| * ε := add_le_add ha hb
    _ = 9 * |q| * ε := by ring

theorem abs_sum_le (hsum : |a + b - 3 * q| ≤ 9 * |q| * ε) (hε : ε ≤ 1 / 9) :
    |a + b| ≤ 4 * |q| := by
  have htriangle := abs_add_le (a + b - 3 * q) (3 * q)
  rw [sub_add_cancel, abs_mul, abs_of_pos (three_pos (α := ℚ))] at htriangle
  have hscaled := mul_le_mul_of_nonneg_left hε (abs_nonneg q)
  linarith

theorem rounded_sum_close (hsum : |a + b - 3 * q| ≤ 9 * |q| * ε)
    (ht : |t - (a + b)| ≤ |a + b| * ε) (hpos : 0 ≤ ε) (hε : ε ≤ 1 / 9) :
    |t - 3 * q| ≤ 13 * |q| * ε :=
  calc |t - 3 * q| ≤ |t - (a + b)| + |a + b - 3 * q| := abs_sub_le _ _ _
    _ ≤ 4 * |q| * ε + 9 * |q| * ε :=
      add_le_add (ht.trans (mul_le_mul_of_nonneg_right (abs_sum_le hsum hε) hpos)) hsum
    _ = 13 * |q| * ε := by ring

/-- What is close to three times a number is about as far from four times it as the number is
from zero. -/
theorem sub_fourfold_bounds (h : |t - 3 * q| ≤ 1 / 2 * |q|) :
    1 / 2 * |q| ≤ |t - 4 * q| ∧ |t - 4 * q| ≤ 3 / 2 * |q| ∧ 5 / 2 * |q| ≤ |t| := by
  have hdiff : t - 4 * q + q = t - 3 * q := by ring
  have hlower := abs_sub (t - 4 * q + q) (t - 4 * q)
  have hupper := abs_sub (t - 4 * q + q) q
  have ht := abs_sub_abs_le_abs_sub (3 * q) t
  rw [add_sub_cancel_left, hdiff] at hlower
  rw [add_sub_cancel_right, hdiff] at hupper
  rw [abs_sub_comm, abs_mul, abs_of_pos three_pos] at ht
  exact ⟨by linarith, by linarith, by linarith⟩

end Closeness

section Sums

variable {c : Float} (hc : c.isFinite = true)

include hc

theorem value_secondSum (h : (2.0 * c).isFinite = true) :
    (secondSum c).isFinite = true ∧ Scalar.value (secondSum c) = 0 := by
  have hq := representable_value hc
  have htwice := rounds_mul value_literal_two.1 hc
  rw [value_literal_two.2] at htwice
  have htwiceValue := htwice.value_eq h (by simpa using hq.zpow_mul (k := 1) one_pos.le)
  have hfirst := rounds_sub hc h
  have hneg : Scalar.value c - 2 * Scalar.value c = -Scalar.value c := by ring
  rw [htwiceValue, hneg] at hfirst
  obtain ⟨hfinite, hvalue⟩ := hfirst.exact hq.neg (by rw [abs_neg]; exact abs_value_lt hc)
  have hlast := rounds_add hfinite hc
  rw [hvalue, neg_add_cancel] at hlast
  exact hlast.exact representable_zero (by rw [abs_zero]; exact overflow_pos)

variable (h : (6.0 * c).isFinite = true)

include h

theorem value_fourfold : (4.0 * c).isFinite = true ∧ Scalar.value (4.0 * c) = 4 * Scalar.value c := by
  have hsix := rounds_mul value_literal_six.1 hc
  have hfour := rounds_mul value_literal_four.1 hc
  rw [value_literal_six.2] at hsix
  rw [value_literal_four.2] at hfour
  have hfinite : (4.0 * c).isFinite = true := by
    refine hfour.isFinite_of_le hsix h ?_
    rw [abs_mul, abs_mul]
    exact mul_le_mul_of_nonneg_right (by norm_num) (abs_nonneg _)
  have hrep : Representable (4 * Scalar.value c) := by
    have := (representable_value hc).zpow_mul (k := 2) two_pos.le
    norm_num at this
    exact this
  exact ⟨hfinite, hfour.value_eq hfinite hrep⟩

/-- Six times a constant is exact where three times the constant is. -/
theorem value_sixfold :
    |Scalar.value (6.0 * c) - 6 * Scalar.value c| ≤ 6 * |Scalar.value c| * 2 ^ (-52 : ℤ) ∧
    (Representable (3 * Scalar.value c) → Scalar.value (6.0 * c) = 6 * Scalar.value c) := by
  have hsix := rounds_mul value_literal_six.1 hc
  rw [value_literal_six.2] at hsix
  constructor
  · have hclose := hsix.abs_sub_le h (by simpa using (isWhole_value hc).intCast_mul 6)
    rwa [abs_mul 6, abs_of_pos (by norm_num : (0 : ℚ) < 6)] at hclose
  · intro hrep
    have htwice := hrep.zpow_mul (k := 1) one_pos.le
    rw [zpow_one, ← mul_assoc] at htwice
    norm_num at htwice
    exact hsix.value_eq h htwice

/-- Subtracted four times, a constant is left three times with the other sign. -/
theorem value_sub_fourfold : (c - 4.0 * c).isFinite = true ∧
    |Scalar.value (c - 4.0 * c) - -(3 * Scalar.value c)| ≤
      3 * |Scalar.value c| * 2 ^ (-52 : ℤ) ∧
    (Representable (3 * Scalar.value c) →
      Scalar.value (c - 4.0 * c) = -(3 * Scalar.value c)) := by
  obtain ⟨hfour, hfourValue⟩ := value_fourfold hc h
  have hless := abs_value_lt hfour
  have hfirst := rounds_sub hc hfour
  rw [hfourValue] at hfirst hless
  have hneg : Scalar.value c - 4 * Scalar.value c = -(3 * Scalar.value c) := by ring
  have hthreeAbs : |-(3 * Scalar.value c)| = 3 * |Scalar.value c| := by
    rw [abs_neg, abs_mul, abs_of_pos three_pos]
  rw [hneg] at hfirst
  rw [abs_mul, abs_of_pos four_pos] at hless
  have hfinite : (c - 4.0 * c).isFinite = true := by
    refine hfirst.isFinite_iff.2 (lt_of_le_of_lt ?_ hless)
    rw [hthreeAbs]
    exact mul_le_mul_of_nonneg_right (by norm_num) (abs_nonneg _)
  have hclose := hfirst.abs_sub_le hfinite (by simpa using (isWhole_value hc).intCast_mul (-3))
  rw [hthreeAbs] at hclose
  exact ⟨hfinite, hclose, fun hrep => hfirst.value_eq hfinite hrep.neg⟩

/-- Close to three times the constant, and the same where that is a double. -/
theorem value_threefold : (threefold c).isFinite = true ∧
    |Scalar.value (threefold c) - 3 * Scalar.value c| ≤
      13 * |Scalar.value c| * 2 ^ (-52 : ℤ) ∧
    (Representable (3 * Scalar.value c) →
      Scalar.value (threefold c) = 3 * Scalar.value c) := by
  obtain ⟨hfirstFinite, hfirstClose, hfirstExact⟩ := value_sub_fourfold hc h
  obtain ⟨hsixClose, hsixExact⟩ := value_sixfold hc h
  have hless := abs_value_lt (value_fourfold hc h).1
  rw [(value_fourfold hc h).2, abs_mul, abs_of_pos four_pos] at hless
  have hround := rounds_add hfirstFinite h
  have hwhole := (isWhole_value hfirstFinite).add (isWhole_value h)
  have hsum := sum_close hfirstClose hsixClose
  have hsumAbs := abs_sum_le hsum (by norm_num)
  have hfinite : (threefold c).isFinite = true :=
    hround.isFinite_iff.2 (hsumAbs.trans_lt hless)
  refine ⟨hfinite, ?_, fun hrep => ?_⟩
  · exact rounded_sum_close hsum (hround.abs_sub_le hfinite hwhole) (by positivity) (by norm_num)
  · have hexact : Scalar.value (c - 4.0 * c) + Scalar.value (6.0 * c) = 3 * Scalar.value c := by
      rw [hfirstExact hrep, hsixExact hrep]
      ring
    rw [hexact] at hround
    exact hround.value_eq hfinite hrep

/-- Where the constant is subtracted again the operands nearly cancel, so that nothing more is
rounded. -/
theorem value_fourthSum : (fourthSum c).isFinite = true ∧
    Scalar.value (fourthSum c) = Scalar.value (threefold c) - 3 * Scalar.value c := by
  obtain ⟨hfour, hfourValue⟩ := value_fourfold hc h
  obtain ⟨hthree, hclose, -⟩ := value_threefold hc h
  have hless := abs_value_lt hfour
  have hfirst := rounds_sub hthree hfour
  have hfirstRep := (representable_value hthree).sub (representable_value hfour)
  have hlast {x : Float} (hx : x.isFinite = true) := rounds_add hx hc
  have hlastRep {x : Float} (hx : x.isFinite = true) :=
    (representable_value hx).sub (representable_value hc).neg
  rw [hfourValue] at hfirst hfirstRep hless
  generalize Scalar.value c = q at *
  generalize Scalar.value (threefold c) = t at *
  have hfourAbs : |4 * q| = 4 * |q| := by rw [abs_mul, abs_of_pos four_pos]
  have hnonneg := abs_nonneg q
  have hsmall : |t - 3 * q| ≤ 1 / 2 * |q| := by
    norm_num at hclose ⊢
    linarith
  obtain ⟨hlower, hupper, ht⟩ := sub_fourfold_bounds hsmall
  obtain ⟨hmiddle, hmiddleValue⟩ :=
    hfirst.exact (hfirstRep (by linarith) (by linarith)) (by linarith)
  have hdiff : t - 4 * q + q = t - 3 * q := by ring
  have hlast := hlast hmiddle
  have hlastRep := hlastRep hmiddle
  rw [hmiddleValue, hdiff] at hlast
  rw [hmiddleValue, sub_neg_eq_add, abs_neg, hdiff] at hlastRep
  exact hlast.exact (hlastRep (by linarith) (by linarith)) (by linarith)

end Sums

/-! ## Quotients -/

section Quotients

variable {x d : Float} (hx : x.isFinite = true) (hd : d.isFinite = true)
  (hpos : 0 < Scalar.value d)

include hx hd hpos

theorem value_div_of_zero (h : Scalar.value x = 0) :
    (x / d).isFinite = true ∧ Scalar.value (x / d) = 0 := by
  have hround := rounds_div hx hd hpos.ne'
  rw [h, zero_div] at hround
  exact hround.exact representable_zero (by rw [abs_zero]; exact overflow_pos)

/-- A divisor of at most one does not make a double vanish. -/
theorem value_div_ne_zero (hle : Scalar.value d ≤ 1) (h : Scalar.value x ≠ 0)
    (hfinite : (x / d).isFinite = true) : Scalar.value (x / d) ≠ 0 := by
  have hround := rounds_div hx hd hpos.ne'
  have hrep := representable_value hx
  rcases h.lt_or_gt with hneg | hx0
  · have hle : Scalar.value x / Scalar.value d ≤ Scalar.value x := by
      rw [div_le_iff₀ hpos]
      nlinarith
    exact ((hround.le_representable hfinite hrep hle).trans_lt hneg).ne
  · have hle : Scalar.value x ≤ Scalar.value x / Scalar.value d := by
      rw [le_div_iff₀ hpos]
      nlinarith
    exact (hx0.trans_le (hround.representable_le hfinite hrep hle)).ne'

end Quotients

/-- The divisor of the second difference. -/
theorem value_secondDivisor : ((1e-3 : Float) * 1e-3).isFinite = true ∧
    Scalar.value ((1e-3 : Float) * 1e-3) = 4722366482869645 * 2 ^ (-72 : ℤ) := by
  have heq : (1e-3 : Float) * 1e-3 = 1e-6 := by decide +kernel
  have hu : (1e-6 : Float).toModel.unpack =
      .finite .positive 4722366482869645 (-72) (by norm_num) := by rfl
  rw [heq]
  exact value_literal hu (by norm_num)

/-- The divisor of the fourth difference. -/
theorem value_fourthDivisor : (Scalar.pow (1e-2 : Float) 4).isFinite = true ∧
    Scalar.value (Scalar.pow (1e-2 : Float) 4) = 6044629098073146 * 2 ^ (-79 : ℤ) := by
  have heq : Scalar.pow (1e-2 : Float) 4 = 1e-8 := by decide +kernel
  have hu : (1e-8 : Float).toModel.unpack =
      .finite .positive 6044629098073146 (-79) (by norm_num) := by rfl
  rw [heq]
  exact value_literal hu (by norm_num)

/-! ## Bounds -/

section Bounds

variable {f : Integrand Float} {a b c : Float} {steps : ℕ}

theorem secondDerivativeBound_constant (hf : ∀ x, f x = .ok c) :
    secondDerivativeBound f a b steps = raise 0.0 (some (secondSum c / (1e-3 * 1e-3))) := by
  have hconstant : secondDifference f = fun _ => some (secondSum c / (1e-3 * 1e-3)) := by
    funext x
    simp only [secondDifference, hf]
    rfl
  rw [secondDerivativeBound, hconstant, greatestOn_constant]

theorem fourthDerivativeBound_constant (hf : ∀ x, f x = .ok c) :
    fourthDerivativeBound f a b steps =
      raise 0.0 (some (fourthSum c / Scalar.pow (1e-2 : Float) 4)) := by
  have hconstant : fourthDifference f =
      fun _ => some (fourthSum c / Scalar.pow (1e-2 : Float) 4) := by
    funext x
    simp only [fourthDifference, hf]
    rfl
  rw [fourthDerivativeBound, hconstant, greatestOn_constant]

theorem secondQuotient_eq_zero (hc : c.isFinite = true) :
    raise 0.0 (some (secondSum c / (1e-3 * 1e-3))) = 0.0 := by
  obtain ⟨hd, hdValue⟩ := value_secondDivisor
  by_cases h : (2.0 * c).isFinite = true
  · obtain ⟨hsum, hzero⟩ := value_secondSum hc h
    have hpos : 0 < Scalar.value ((1e-3 : Float) * 1e-3) := by rw [hdValue]; positivity
    obtain ⟨hfinite, hvalue⟩ := value_div_of_zero hsum hd hpos hzero
    exact (raise_zero_eq_iff hfinite).2 hvalue
  · refine raise_of_not_isFinite fun hquotient => h ?_
    have hsum : (c - 2.0 * c + c).isFinite = true := isFinite_of_div hquotient
    exact (isFinite_of_sub (isFinite_of_add hsum).1).2

/-- The fourth quotient does not overflow where the sum does not. -/
theorem isFinite_fourthQuotient (hc : c.isFinite = true) (h : (6.0 * c).isFinite = true) :
    (fourthSum c / Scalar.pow (1e-2 : Float) 4).isFinite = true := by
  obtain ⟨hd, hdValue⟩ := value_fourthDivisor
  obtain ⟨hsum, hsumValue⟩ := value_fourthSum hc h
  have hclose := (value_threefold hc h).2.1
  have hless := abs_value_lt hc
  have hpos : (0 : ℚ) < 6044629098073146 * 2 ^ (-79 : ℤ) := by positivity
  have hround := rounds_div hsum hd (hdValue ▸ hpos.ne')
  rw [hsumValue, hdValue] at hround
  refine hround.isFinite_iff.2 (lt_of_le_of_lt ?_ hless)
  rw [abs_div, abs_of_pos hpos, div_le_iff₀ hpos]
  refine hclose.trans ?_
  have hnonneg := abs_nonneg (Scalar.value c)
  norm_num
  linarith

theorem fourthQuotient_eq_zero_iff (hc : c.isFinite = true) :
    raise 0.0 (some (fourthSum c / Scalar.pow (1e-2 : Float) 4)) = 0.0 ↔
      ¬ (6.0 * c).isFinite = true ∨ Representable (3 * Scalar.value c) := by
  obtain ⟨hd, hdValue⟩ := value_fourthDivisor
  by_cases h : (6.0 * c).isFinite = true
  · obtain ⟨hthree, -, hexact⟩ := value_threefold hc h
    obtain ⟨hsum, hsumValue⟩ := value_fourthSum hc h
    have hfinite := isFinite_fourthQuotient hc h
    have hpos : 0 < Scalar.value (Scalar.pow (1e-2 : Float) 4) := by rw [hdValue]; positivity
    have hone : Scalar.value (Scalar.pow (1e-2 : Float) 4) ≤ 1 := by rw [hdValue]; norm_num
    rw [raise_zero_eq_iff hfinite, or_iff_right (not_not_intro h)]
    constructor
    · intro hzero
      by_contra hrep
      refine value_div_ne_zero hsum hd hpos hone (fun hsumZero => hrep ?_) hfinite hzero
      rw [hsumValue, sub_eq_zero] at hsumZero
      exact hsumZero ▸ representable_value hthree
    · intro hrep
      refine (value_div_of_zero hsum hd hpos ?_).2
      rw [hsumValue, hexact hrep, sub_self]
  · refine iff_of_true (raise_of_not_isFinite fun hquotient => h ?_) (.inl h)
    have hsum : (c - 4.0 * c + 6.0 * c - 4.0 * c + c).isFinite = true := isFinite_of_div hquotient
    exact (isFinite_of_add (isFinite_of_sub (isFinite_of_add hsum).1).1).2

/-- The second derivative bound of a constant is zero; its fourth derivative bound is zero
exactly where three times the constant is a double, or six times the constant is none at all. -/
theorem bounds_constant (hc : c.isFinite = true) (hf : ∀ x, f x = .ok c) :
    secondDerivativeBound f a b steps = 0.0 ∧
      (fourthDerivativeBound f a b steps = 0.0 ↔
        ¬ (6.0 * c).isFinite = true ∨ Representable (3 * Scalar.value c)) := by
  rw [secondDerivativeBound_constant hf, fourthDerivativeBound_constant hf]
  exact ⟨secondQuotient_eq_zero hc, fourthQuotient_eq_zero_iff hc⟩

/-- Three times seven halves has few bits. -/
theorem bounds_constant_seven_halves :
    let f : Integrand Float := fun _ => .ok 3.5
    (3.5 : Float).isFinite = true ∧ (∀ x, f x = .ok 3.5) ∧
      secondDerivativeBound f 0.0 1.0 1000 = 0.0 ∧ fourthDerivativeBound f 0.0 1.0 1000 = 0.0 := by
  intro f
  have hu : (3.5 : Float).toModel.unpack = .finite .positive (7 * 2 ^ 50) (-51) (by norm_num) := by
    rfl
  obtain ⟨hc, hvalue⟩ := value_literal hu (q := 7 / 2) (by norm_num)
  have hrep : Representable (3 * Scalar.value (3.5 : Float)) := by
    rw [hvalue]
    exact ⟨21, -1, by norm_num, by norm_num, by norm_num⟩
  have hf (x : Float) : f x = .ok 3.5 := rfl
  obtain ⟨hsecond, hfourth⟩ : secondDerivativeBound f 0.0 1.0 1000 = 0.0 ∧
      (fourthDerivativeBound f 0.0 1.0 1000 = 0.0 ↔ _) := bounds_constant hc hf
  exact ⟨hc, hf, hsecond, hfourth.2 (.inr hrep)⟩

/-- A tenth has a last bit that three times a tenth has no room for. -/
theorem fourthDerivativeBound_tenth :
    let f : Integrand Float := fun _ => .ok 0.1
    (0.1 : Float).isFinite = true ∧ (∀ x, f x = .ok 0.1) ∧ checkBounds (0.0 : Float) 1.0 = .ok () ∧
      fourthDerivativeBound f 0.0 1.0 10 ≠ 0.0 := by
  intro f
  refine ⟨by decide +kernel, fun _ => rfl, by rfl, ?_⟩
  rw [fourthDerivativeBound_constant (f := f) (c := 0.1) fun _ => rfl]
  decide +kernel

end Bounds

end Quadrature
