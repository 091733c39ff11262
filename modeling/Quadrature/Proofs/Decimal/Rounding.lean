import Mathlib
import Quadrature.Decimal.Rounding
import Quadrature.Proofs.Scalar.Exact

/-!
# Rounding to places without rounding errors

Over the rationals a number is rounded to a nearest multiple of the last place, and of two
nearest ones to the even one (`roundTo_eq`, `NearestEven`). There is one such multiple, so that
rounding is odd, monotone and idempotent, and the way in which the power of ten is split into
factors does not matter.
-/

namespace Quadrature

/-! ## Nearest integers -/

/-- `k` is an integer nearest to `y`, and even if there are two. -/
structure NearestEven (y : ℚ) (k : ℤ) : Prop where
  near : |(k : ℚ) - y| ≤ 1 / 2
  even : |(k : ℚ) - y| = 1 / 2 → Even k

namespace NearestEven

variable {x y : ℚ} {j k : ℤ}

/-- Two neighbouring integers are not both even. -/
theorem le_of_le (hx : NearestEven x j) (hy : NearestEven y k) (hxy : x ≤ y) : j ≤ k := by
  obtain ⟨hxlow, hxhigh⟩ := abs_le.1 hx.near
  obtain ⟨hylow, hyhigh⟩ := abs_le.1 hy.near
  by_contra hlt
  have hsucc : (k : ℚ) + 1 ≤ j := by exact_mod_cast Int.not_le.1 hlt
  have hjx : (j : ℚ) - x = 1 / 2 := by linarith
  have hky : (k : ℚ) - y = -(1 / 2) := by linarith
  have hj := hx.even (by rw [hjx]; norm_num)
  have hk := hy.even (by rw [hky]; norm_num)
  have hjk : (j : ℚ) = k + 1 := by linarith
  have hjk : j = k + 1 := by exact_mod_cast hjk
  obtain ⟨m, rfl⟩ := hk
  obtain ⟨n, hn⟩ := hj
  omega

theorem unique (h : NearestEven y j) (h' : NearestEven y k) : j = k :=
  le_antisymm (h.le_of_le h' le_rfl) (h'.le_of_le h le_rfl)

theorem neg (h : NearestEven y k) : NearestEven (-y) (-k) := by
  have habs : |((-k : ℤ) : ℚ) - -y| = |(k : ℚ) - y| := by
    rw [Int.cast_neg, ← abs_neg]
    congr 1
    ring
  exact ⟨habs ▸ h.near, fun htie => (h.even (habs ▸ htie)).neg⟩

theorem intCast (k : ℤ) : NearestEven k k := by
  constructor <;> norm_num

end NearestEven

theorem abs_roundAway_sub_le (y : ℚ) : |(roundAway y : ℚ) - y| ≤ 1 / 2 := by
  have hfloor (z : ℚ) : |((z + 1 / 2).floor : ℚ) - z| ≤ 1 / 2 := by
    have hle : ((z + 1 / 2).floor : ℚ) ≤ z + 1 / 2 := Rat.floor_le _
    have hlt : z + 1 / 2 < ((z + 1 / 2).floor : ℚ) + 1 := by
      exact_mod_cast Rat.lt_floor_add_one (z + 1 / 2)
    rw [abs_le]
    constructor <;> linarith
  unfold roundAway
  split
  · have hneg := hfloor (-y)
    rw [sub_neg_eq_add, ← abs_neg] at hneg
    convert hneg using 2
    push_cast
    ring
  · exact hfloor y

/-- An integer that is at most one away from a half is a half away from it. -/
theorem abs_sub_half_le {i : ℤ} {w : ℚ} (hw : |w| = 1 / 2) (h : |(i : ℚ) - w| ≤ 1) :
    |(i : ℚ) - w| ≤ 1 / 2 := by
  obtain ⟨hlow, hhigh⟩ := abs_le.1 h
  rcases (abs_eq (by norm_num)).1 hw with rfl | rfl
  · have hi : -1 < i ∧ i < 2 := by
      constructor
      · have : (-1 : ℚ) < i := by linarith
        exact_mod_cast this
      · have : (i : ℚ) < 2 := by linarith
        exact_mod_cast this
    obtain rfl | rfl : i = 0 ∨ i = 1 := by omega
    all_goals norm_num
  · have hi : -2 < i ∧ i < 1 := by
      constructor
      · have : (-2 : ℚ) < i := by linarith
        exact_mod_cast this
      · have : (i : ℚ) < 1 := by linarith
        exact_mod_cast this
    obtain rfl | rfl : i = -1 ∨ i = 0 := by omega
    all_goals norm_num

theorem roundEven_def (y : ℚ) : roundEven y =
    if |y - roundAway y| = 1 / 2 then 2 * (roundAway (y / 2) : ℚ) else roundAway y := by
  have hhalf : (0.5 : ℚ) = 1 / 2 := by norm_num
  have htwo : (2.0 : ℚ) = 2 := by norm_num
  show (if (Scalar.abs (y - roundAway y) == (0.5 : ℚ)) = true then
    (2.0 : ℚ) * (roundAway (y / 2.0) : ℚ) else roundAway y) = _
  rw [Scalar.abs_exact, hhalf, htwo]
  exact if_congr beq_iff_eq rfl rfl

/-- Rounding, and at a tie halving, rounding and doubling, gives the nearest even integer. -/
theorem roundEven_exact (y : ℚ) : ∃ k : ℤ, roundEven y = k ∧ NearestEven y k := by
  have hnear := abs_roundAway_sub_le y
  rw [roundEven_def]
  split_ifs with htie
  · refine ⟨2 * roundAway (y / 2), by push_cast; rfl, ?_, fun _ => even_two_mul _⟩
    have hdouble : ((2 * roundAway (y / 2) : ℤ) : ℚ) - y =
        ((2 * roundAway (y / 2) - roundAway y : ℤ) : ℚ) - (y - roundAway y) := by push_cast; ring
    have hhalf := abs_le.1 (abs_roundAway_sub_le (y / 2))
    rw [hdouble]
    refine abs_sub_half_le htie ?_
    rw [← hdouble, abs_le]
    push_cast
    constructor <;> linarith
  · refine ⟨roundAway y, rfl, hnear, fun h => absurd ?_ htie⟩
    rw [abs_sub_comm, h]

/-! ## Places -/

section Places

variable {x y : ℚ} {places : ℕ}

/-- The power of ten by which a number is multiplied before it is rounded. The exponent of a
factor is a signed 32-bit number. -/
def scalePlaces (places : ℕ) : ℤ :=
  if 22 < places then Int.bmod (places - 22 : ℕ) UInt32.size + 22 else places

theorem scalePlaces_eq (h : places < 2 ^ 31 + 22) : scalePlaces places = places := by
  rw [scalePlaces]
  split_ifs
  · have hword : UInt32.size = 2 ^ 32 := rfl
    rw [Int.bmod_eq_of_le (by omega) (by omega)]
    omega
  · rfl

theorem scalePlaces_le (places : ℕ) : scalePlaces places ≤ places := by
  rw [scalePlaces]
  split_ifs
  · have hword : UInt32.size = 2 ^ 32 := rfl
    rw [Int.bmod, hword]
    split_ifs <;> omega
  · rfl

/-- The two factors are a split of one power of ten. -/
theorem scaleFactors_mul (places : ℕ) :
    (scaleFactors places : ℚ × ℚ).1 * (scaleFactors places : ℚ × ℚ).2 =
      10 ^ scalePlaces places := by
  have hten : (10.0 : ℚ) = 10 := by norm_num
  rw [scaleFactors, scalePlaces]
  split_ifs
  · have htens : (1e22 : ℚ) = 10 ^ (22 : ℤ) := by norm_num
    rw [Scalar.zpow_exact, hten, htens, zpow_add₀ (by norm_num)]
  · have hone : (1.0 : ℚ) = 1 := by norm_num
    rw [Scalar.zpow_exact, hten, hone, mul_one]

theorem roundTo_eq (x : ℚ) (places : ℕ) :
    roundTo x places =
      roundEven (x * 10 ^ scalePlaces places) / 10 ^ scalePlaces places := by
  have hunfold : roundTo x places =
      roundEven (x * (scaleFactors places : ℚ × ℚ).1 * (scaleFactors places : ℚ × ℚ).2) /
        (scaleFactors places : ℚ × ℚ).2 / (scaleFactors places : ℚ × ℚ).1 := rfl
  rw [hunfold, mul_assoc, div_div, mul_comm (scaleFactors places : ℚ × ℚ).2, scaleFactors_mul]

/-- What is rounded is an integer in the last place. -/
theorem roundTo_exact (x : ℚ) (places : ℕ) : ∃ k : ℤ,
    roundTo x places = k / 10 ^ scalePlaces places ∧
      NearestEven (x * 10 ^ scalePlaces places) k := by
  obtain ⟨k, hk, hnear⟩ := roundEven_exact (x * 10 ^ scalePlaces places)
  exact ⟨k, by rw [roundTo_eq, hk], hnear⟩

theorem roundTo_of_nearest {k : ℤ} (h : NearestEven (x * 10 ^ scalePlaces places) k) :
    roundTo x places = k / 10 ^ scalePlaces places := by
  obtain ⟨j, hj, hnear⟩ := roundTo_exact x places
  rw [hj, hnear.unique h]

theorem roundTo_neg (x : ℚ) (places : ℕ) : roundTo (-x) places = -roundTo x places := by
  obtain ⟨k, hk, hnear⟩ := roundTo_exact x places
  have hneg := hnear.neg
  rw [← neg_mul] at hneg
  rw [roundTo_of_nearest hneg, hk, Int.cast_neg, neg_div]

theorem roundTo_monotone (h : x ≤ y) : roundTo x places ≤ roundTo y places := by
  obtain ⟨j, hj, hx⟩ := roundTo_exact x places
  obtain ⟨k, hk, hy⟩ := roundTo_exact y places
  have hjk := hx.le_of_le hy (by gcongr)
  rw [hj, hk]
  gcongr

theorem roundTo_roundTo (x : ℚ) (places : ℕ) :
    roundTo (roundTo x places) places = roundTo x places := by
  obtain ⟨k, hk, -⟩ := roundTo_exact x places
  have hpos : (0 : ℚ) < 10 ^ scalePlaces places := by positivity
  have hself : NearestEven (roundTo x places * 10 ^ scalePlaces places) k := by
    rw [hk, div_mul_cancel₀ _ hpos.ne']
    exact .intCast k
  rw [roundTo_of_nearest hself, hk]

/-- Also where the factors are a smaller power of ten, no more than `places` digits are kept. -/
theorem exists_int_roundTo (x : ℚ) (places : ℕ) : ∃ k : ℤ, roundTo x places = k / 10 ^ places := by
  obtain ⟨k, hk, -⟩ := roundTo_exact x places
  obtain ⟨j, hj⟩ := Int.le.dest (scalePlaces_le places)
  refine ⟨k * 10 ^ j, ?_⟩
  have hpos : (0 : ℚ) < 10 ^ scalePlaces places := by positivity
  rw [hk, ← zpow_natCast 10 places, ← hj, zpow_add₀ (by norm_num), zpow_natCast]
  push_cast
  field_simp

end Places

end Quadrature
