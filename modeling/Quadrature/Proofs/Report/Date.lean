import Mathlib
import Quadrature.Report.Date

/-!
# Days and dates

A day has one date: the date of a day is valid (`Date.isValid_ofDays`) and its number is that
of the day (`Date.toDays_ofDays`).
-/

namespace Quadrature.Date

/-! ## Years -/

/-- A year is as long as its months. -/
theorem sum_monthLengths (year : Int) :
    ((monthLengths year).sum : Int) = daysBefore (year + 1) - daysBefore year := by
  have hsum : (monthLengths year).sum = if isLeap year then 366 else 365 := by
    cases h : isLeap year <;> simp [monthLengths, h]
  rw [hsum, isLeap, daysBefore, daysBefore]
  by_cases h : year % 4 = 0 ∧ (year % 100 ≠ 0 ∨ year % 400 = 0)
  · rw [if_pos (decide_eq_true h)]
    omega
  · rw [if_neg (by rwa [decide_eq_true_eq])]
    omega

/-- The mean length of a year gives the year up to one, in both directions. -/
theorem daysBefore_estimate (n : Int) :
    daysBefore (400 * n / 146097 + 1 - 1) ≤ n ∧ n < daysBefore (400 * n / 146097 + 1 + 1 + 1) := by
  rw [daysBefore, daysBefore]
  omega

theorem daysBefore_yearOfDay (n : Int) :
    daysBefore (yearOfDay n) ≤ n ∧ n < daysBefore (yearOfDay n + 1) := by
  obtain ⟨hlow, hhigh⟩ := daysBefore_estimate n
  unfold yearOfDay
  dsimp only
  split
  · next h => rw [Int.sub_add_cancel]; exact ⟨hlow, h⟩
  · next h =>
    split
    · next h' => exact ⟨h', hhigh⟩
    · next h' => exact ⟨Int.not_lt.1 h, Int.not_le.1 h'⟩

/-! ## Months -/

theorem monthAndDay_spec {lengths : List Nat} {n : Nat} (h : n < lengths.sum) :
    ∃ length, lengths[(monthAndDay lengths n).1 - 1]? = some length ∧
      1 ≤ (monthAndDay lengths n).1 ∧ 1 ≤ (monthAndDay lengths n).2 ∧
      (monthAndDay lengths n).2 ≤ length ∧
      daysOf ((monthAndDay lengths n).1 - 1) lengths + ((monthAndDay lengths n).2 - 1) = n := by
  induction lengths generalizing n with
  | nil => exact absurd h (Nat.not_lt_zero n)
  | cons length lengths ih =>
    by_cases hn : n < length
    · rw [monthAndDay, if_pos hn]
      exact ⟨length, rfl, le_rfl, Nat.succ_le_succ (Nat.zero_le n), hn, by simp [daysOf]⟩
    · rw [List.sum_cons] at h
      obtain ⟨l, hl, hmonth, hday, hle, hdays⟩ := ih (n := n - length) (by omega)
      rw [monthAndDay, if_neg hn]
      dsimp only
      obtain ⟨m, hm⟩ := Nat.exists_eq_succ_of_ne_zero (Nat.pos_iff_ne_zero.1 hmonth)
      rw [hm] at hl hdays ⊢
      refine ⟨l, hl, by omega, hday, hle, ?_⟩
      rw [Nat.succ_sub_one] at hdays
      rw [Nat.add_sub_cancel, daysOf]
      omega

/-! ## Dates -/

variable (n : Int)

theorem monthAndDay_ofDays :
    ∃ length, (monthLengths (ofDays n).year)[(ofDays n).month - 1]? = some length ∧
      1 ≤ (ofDays n).month ∧ 1 ≤ (ofDays n).day ∧ (ofDays n).day ≤ length ∧
      ((daysOf ((ofDays n).month - 1) (monthLengths (ofDays n).year) + ((ofDays n).day - 1) : Nat) :
        Int) = n + epoch - daysBefore (ofDays n).year := by
  obtain ⟨hlow, hhigh⟩ := daysBefore_yearOfDay (n + epoch)
  have hsum := sum_monthLengths (yearOfDay (n + epoch))
  have hlt : (n + epoch - daysBefore (yearOfDay (n + epoch))).toNat <
      (monthLengths (yearOfDay (n + epoch))).sum := by omega
  obtain ⟨length, hlength, hmonth, hday, hle, hdays⟩ := monthAndDay_spec hlt
  refine ⟨length, hlength, hmonth, hday, hle, ?_⟩
  rw [show daysOf ((ofDays n).month - 1) (monthLengths (ofDays n).year) + ((ofDays n).day - 1) =
    (n + epoch - daysBefore (yearOfDay (n + epoch))).toNat from hdays]
  exact Int.toNat_of_nonneg (by omega)

theorem toDays_ofDays : (ofDays n).toDays = n := by
  obtain ⟨-, -, -, -, -, hdays⟩ := monthAndDay_ofDays n
  rw [toDays, hdays]
  omega

theorem isValid_ofDays : (ofDays n).isValid = true := by
  obtain ⟨length, hlength, hmonth, hday, hle, -⟩ := monthAndDay_ofDays n
  rw [isValid, decide_eq_true_eq, hlength]
  exact ⟨hmonth, hday, hle⟩

/-- Month and day have at most two digits. -/
theorem ofDays_lt : (ofDays n).month < 100 ∧ (ofDays n).day < 100 := by
  obtain ⟨length, hlength, hmonth, -, hle, -⟩ := monthAndDay_ofDays n
  obtain ⟨hlt, hget⟩ := List.getElem?_eq_some_iff.1 hlength
  have hlengths : ∀ l ∈ monthLengths (ofDays n).year, l < 100 := by
    intro l hl
    simp only [monthLengths, List.mem_cons, List.not_mem_nil, or_false] at hl
    split at hl <;> omega
  have := hlengths length (hget ▸ List.getElem_mem hlt)
  have hcount : (monthLengths (ofDays n).year).length = 12 := rfl
  omega

end Quadrature.Date
