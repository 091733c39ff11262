import Mathlib
import Quadrature.Proofs.Scalar.Overflow

/-!
# Small differences

Rounding changes a sum of doubles by one part in `2 ^ 52` at most (`Rounds.abs_sub_le`), and
not at all where the operands nearly cancel (`Representable.sub`).
-/

namespace Quadrature

/-- In the smaller of two last places a difference that is no greater than the operand with that
place is an integer of at most 53 bits. -/
theorem representable_sub_of_exponent_le {x y : ℚ} {m m' : ℕ} {e e' : ℤ} (hm : m < 2 ^ 53)
    (he : -1074 ≤ e) (hx : |x| = m * 2 ^ e) (hy : |y| = m' * 2 ^ e') (hee' : e ≤ e')
    (hxy : |x - y| ≤ |x|) : Representable (x - y) := by
  obtain ⟨k, rfl⟩ := Int.le.dest hee'
  have hunit : (0 : ℚ) < 2 ^ e := by positivity
  have hy' : |y| = (m' * 2 ^ k : ℕ) * 2 ^ e := by
    rw [hy, zpow_add₀ two_ne_zero, zpow_natCast]
    push_cast
    ring
  obtain ⟨i, hi⟩ := exists_int_mul hx
  obtain ⟨j, hj⟩ := exists_int_mul hy'
  have habs : |x - y| = (i - j).natAbs * 2 ^ e := by
    rw [hi, hj, ← sub_mul, abs_mul, abs_of_pos hunit, Nat.cast_natAbs, Int.cast_abs, Int.cast_sub]
  rw [habs, hx, mul_le_mul_iff_of_pos_right hunit] at hxy
  have hbits : (i - j).natAbs ≤ m := by exact_mod_cast hxy
  exact ⟨(i - j).natAbs, e, by omega, he, habs⟩

/-- A difference that is no greater than either operand is one that doubles have room for. -/
theorem Representable.sub {x y : ℚ} (hx : Representable x) (hy : Representable y)
    (hleft : |x - y| ≤ |x|) (hright : |x - y| ≤ |y|) : Representable (x - y) := by
  obtain ⟨m, e, hm, he, hx⟩ := hx
  obtain ⟨m', e', hm', he', hy⟩ := hy
  rcases le_total e e' with h | h
  · exact representable_sub_of_exponent_le hm he hx hy h hleft
  · rw [abs_sub_comm] at hright
    have hback := representable_sub_of_exponent_le hm' he' hy hx h hright
    exact neg_sub y x ▸ hback.neg

namespace Rounds

variable {x : Float} {q : ℚ}

theorem value_eq (h : Rounds q x) (hx : x.isFinite = true) (hq : Representable q) :
    Scalar.value x = q :=
  (h.exact hq (h.abs_lt_overflow hx)).2

/-- Sums of doubles keep their relative precision also where they are small. -/
theorem abs_sub_le (h : Rounds q x) (hx : x.isFinite = true) (hq : IsWhole q) :
    |Scalar.value x - q| ≤ |q| * 2 ^ (-52 : ℤ) := by
  rcases lt_or_ge |q| (2 ^ (-1021 : ℤ)) with hsmall | hlarge
  · rw [h.value_eq hx (hq.representable hsmall), sub_self, abs_zero]
    positivity
  · have hnormal : (2 : ℚ) ^ (-1022 : ℤ) ≤ |q| :=
      (zpow_le_zpow_right₀ (by norm_num) (by norm_num)).trans hlarge
    obtain ⟨l, u, hl, hu, hlq, hqu, hlow, hhigh⟩ := exists_representable_near hnormal
    rw [abs_sub_le_iff]
    rcases abs_choice q with hsign | hsign <;> rw [hsign] at hlq hqu hlow hhigh ⊢
    · have hbelow := h.representable_le hx hl hlq
      have habove := h.le_representable hx hu hqu
      constructor <;> linarith
    · have hbelow := h.representable_le hx hu.neg (by linarith)
      have habove := h.le_representable hx hl.neg (by linarith)
      constructor <;> linarith

end Rounds

end Quadrature
