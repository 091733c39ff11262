import Mathlib
import Quadrature.Proofs.Decimal.Layout
import Quadrature.Proofs.Decimal.Rounding

/-!
# Texts of rounded numbers

A number with finitely many places is written with all of them (`fixedChars_exact`), and the
zeros at the end of its fraction are dropped, with the point if nothing is left of it
(`dropZeros_point`). So the text of a rounded number denotes it. Main statement:
`roundTo_roundedText`.
-/

namespace Quadrature

/-- The number that a decimal stands for. -/
def Decimal.toRat (d : Decimal) : ℚ :=
  d.digits * 10 ^ d.exponent

/-- A literal with no superfluous zeros and at most `places` digits after the point. -/
structure IsTrimmed (n : Numeral) (places : ℕ) : Prop where
  plain : IsPlain n
  whole : ∃ k, n.whole = digitChars k
  fraction : ∀ ds, n.fraction = some ds → ds ≠ [] ∧ ds.getLast? ≠ some '0' ∧ ds.length ≤ places

theorem IsTrimmed.mono {n : Numeral} {m places : ℕ} (h : IsTrimmed n m) (hle : m ≤ places) :
    IsTrimmed n places := by
  refine ⟨h.plain, h.whole, fun ds hds => ?_⟩
  obtain ⟨hne, hlast, hlength⟩ := h.fraction ds hds
  exact ⟨hne, hlast, hlength.trans hle⟩

/-! ## Digits on both sides of the point -/

theorem digitChars_of_lt {n : ℕ} (h : n < 10) : digitChars n = [n.digitChar] :=
  Nat.toDigits_of_lt_base h

theorem digitChars_of_le {n : ℕ} (h : 10 ≤ n) :
    digitChars n = digitChars (n / 10) ++ [(n % 10).digitChar] :=
  Nat.toDigits_of_base_le (by norm_num) h

/-- Filled up with zeros, the digits of a number are those of its quotient by `10 ^ m` and `m`
more. -/
theorem exists_digits (m n : ℕ) : ∃ f : List Char, f.length = m ∧ AllDigits f ∧
    List.replicate (m + 1 - (digitChars n).length) '0' ++ digitChars n =
      digitChars (n / 10 ^ m) ++ f := by
  induction m generalizing n with
  | zero =>
    have hlength := List.length_pos_of_ne_nil (digitChars_ne_nil n)
    refine ⟨[], rfl, (by intro c hc; cases hc), ?_⟩
    rw [pow_zero, Nat.div_one, List.append_nil, Nat.sub_eq_zero_of_le (by omega)]
    rfl
  | succ m ih =>
    have hdigit : AllDigits [(n % 10).digitChar] := by
      rw [← digitChars_of_lt (Nat.mod_lt n (by norm_num))]
      exact allDigits_digitChars _
    rcases lt_or_ge n 10 with hn | hn
    · -- a single digit, all others are zeros
      refine ⟨List.replicate m '0' ++ [(n % 10).digitChar], by simp,
        (allDigits_zeros m).append hdigit, ?_⟩
      have hsmall : n < 10 ^ (m + 1) := hn.trans_le (Nat.le_self_pow m.succ_ne_zero 10)
      rw [digitChars_of_lt hn, Nat.div_eq_of_lt hsmall, Nat.mod_eq_of_lt hn]
      rfl
    · obtain ⟨f, hf, hfdigits, heq⟩ := ih (n / 10)
      refine ⟨f ++ [(n % 10).digitChar], by simp [hf], hfdigits.append hdigit, ?_⟩
      have hquotient : n / 10 / 10 ^ m = n / 10 ^ (m + 1) := by
        rw [Nat.div_div_eq_div_mul, ← pow_succ']
      rw [hquotient] at heq
      rw [digitChars_of_le hn, List.length_append, List.length_singleton, Nat.add_sub_add_right,
        ← List.append_assoc, heq, List.append_assoc]

theorem pointed_zero (n : ℕ) : pointed n 0 = digitChars n := by
  obtain ⟨f, hf, -, heq⟩ := exists_digits 0 n
  rw [List.length_eq_zero_iff.1 hf, List.append_nil, pow_zero, Nat.div_one] at heq
  rw [pointed, if_pos rfl, heq]

theorem exists_pointed {m : ℕ} (hm : m ≠ 0) (n : ℕ) : ∃ f : List Char, f.length = m ∧
    AllDigits f ∧ pointed n m = digitChars (n / 10 ^ m) ++ '.' :: f ∧
    digitsValue (digitChars (n / 10 ^ m) ++ f) = n := by
  obtain ⟨f, hf, hfdigits, heq⟩ := exists_digits m n
  refine ⟨f, hf, hfdigits, ?_, ?_⟩
  · rw [pointed, if_neg hm, heq]
    have hcut : (digitChars (n / 10 ^ m) ++ f).length - m = (digitChars (n / 10 ^ m)).length := by
      rw [List.length_append, hf, Nat.add_sub_cancel]
    rw [hcut, List.take_left, List.drop_left]
  · rw [← heq, digitsValue_zeros_append, digitsValue_digitChars]

/-! ## Zeros at the end -/

theorem dropZeros_concat_zero {cs : List Char} (h : '.' ∈ cs) :
    dropZeros (cs ++ ['0']) = dropZeros cs := by
  have hcs : cs.contains '.' = true := List.contains_iff_mem.2 h
  have happend : (cs ++ ['0']).contains '.' = true :=
    List.contains_iff_mem.2 (List.mem_append_left _ h)
  rw [dropZeros, dropZeros, if_pos hcs, if_pos happend, List.reverse_append]
  rfl

theorem dropZeros_concat_digit {cs : List Char} {c : Char} (h : '.' ∈ cs) (hc : c.isDigit = true)
    (hzero : c ≠ '0') : dropZeros (cs ++ [c]) = cs ++ [c] := by
  have happend : (cs ++ [c]).contains '.' = true :=
    List.contains_iff_mem.2 (List.mem_append_left _ h)
  have hpoint : c ≠ '.' := by
    rintro rfl
    cases hc
  rw [dropZeros, if_pos happend, List.reverse_append, List.reverse_singleton,
    List.singleton_append, List.dropWhile_cons_of_neg (by simpa using hzero),
    List.dropWhile_cons_of_neg (by simpa using hpoint), List.reverse_cons, List.reverse_reverse]

theorem dropZeros_concat_point {cs : List Char} (h : cs.getLast? ≠ some '.') :
    dropZeros (cs ++ ['.']) = cs := by
  have happend : (cs ++ ['.']).contains '.' = true :=
    List.contains_iff_mem.2 (List.mem_append_right _ List.mem_cons_self)
  rw [dropZeros, if_pos happend, List.reverse_append, List.reverse_singleton,
    List.singleton_append, List.dropWhile_cons_of_neg (by decide),
    List.dropWhile_cons_of_pos (by decide)]
  rw [← List.head?_reverse] at h
  cases hr : cs.reverse with
  | nil => rw [List.reverse_eq_nil_iff.1 hr]; rfl
  | cons d ds =>
    rw [hr] at h
    rw [List.dropWhile_cons_of_neg (by simpa using h), ← hr, List.reverse_reverse]

/-- Of a fraction the zeros at its end are dropped, and the point with a fraction of zeros. -/
theorem dropZeros_point {w f : List Char} (hw : w.getLast? ≠ some '.') (hf : AllDigits f) :
    ∃ f' k, f = f' ++ List.replicate k '0' ∧ f'.getLast? ≠ some '0' ∧
      dropZeros (w ++ '.' :: f) = w ++ if f' = [] then [] else '.' :: f' := by
  induction f using List.reverseRecOn with
  | nil => exact ⟨[], 0, rfl, by simp, by simpa using dropZeros_concat_point hw⟩
  | append_singleton f c ih =>
    have hpoint : '.' ∈ w ++ '.' :: f := by simp
    have hconcat : w ++ '.' :: (f ++ [c]) = (w ++ '.' :: f) ++ [c] := by simp
    rw [hconcat]
    by_cases hc : c = '0'
    · obtain ⟨f', k, rfl, hlast, hdrop⟩ := ih fun d hd => hf d (List.mem_append_left _ hd)
      refine ⟨f', k + 1, ?_, hlast, ?_⟩
      · rw [hc, List.replicate_succ', List.append_assoc]
      · rw [hc, dropZeros_concat_zero hpoint, hdrop]
    · refine ⟨f ++ [c], 0, by simp, by simpa using hc, ?_⟩
      rw [dropZeros_concat_digit hpoint (hf c (by simp)) hc, if_neg (by simp), hconcat]

/-- Without a point nothing is dropped. -/
theorem dropZeros_of_not_mem {cs : List Char} (h : '.' ∉ cs) : dropZeros cs = cs := by
  rw [dropZeros, if_neg]
  exact fun hcontains => h (List.contains_iff_mem.1 hcontains)

/-! ## Exact texts -/

/-- With the zeros at its end dropped, a number of `m` places is a literal that still stands for
it. -/
theorem exists_trimmed {sign : List Char} (hsign : sign = [] ∨ sign = ['-']) (n m : ℕ) :
    ∃ l : Numeral, IsTrimmed l m ∧ dropZeros (sign ++ pointed n m) = sign ++ l.text ∧
      l.value.toRat = n / 10 ^ m := by
  have hpoint {cs : List Char} (hcs : AllDigits cs) : '.' ∉ cs := fun h => by cases hcs '.' h
  rcases eq_or_ne m 0 with rfl | hm
  · have hdigits := allDigits_digitChars n
    refine ⟨⟨digitChars n, none, none⟩,
      ⟨⟨hdigits, digitChars_ne_nil n, by simp, rfl⟩, ⟨n, rfl⟩, by simp⟩, ?_, ?_⟩
    · have hnone : '.' ∉ sign ++ digitChars n := by
        rcases hsign with rfl | rfl <;> simp [hpoint hdigits]
      rw [pointed_zero, dropZeros_of_not_mem hnone]
      simp [Numeral.text]
    · simp [Decimal.toRat, Numeral.value, digitsValue_digitChars]
  · obtain ⟨f, hlength, hf, hpointed, hvalue⟩ := exists_pointed hm n
    obtain ⟨w, hw⟩ : ∃ w, w = digitChars (n / 10 ^ m) := ⟨_, rfl⟩
    have hdigits : AllDigits w := hw ▸ allDigits_digitChars _
    have hne : w ≠ [] := hw ▸ digitChars_ne_nil _
    have hlast : (sign ++ w).getLast? ≠ some '.' := by
      rw [List.getLast?_append_of_ne_nil _ hne]
      exact fun h => hpoint hdigits (List.mem_of_getLast? h)
    obtain ⟨f', k, rfl, hzero, hdrop⟩ := dropZeros_point hlast hf
    rw [← hw] at hpointed hvalue
    rw [List.length_append, List.length_replicate] at hlength
    refine ⟨⟨w, if f' = [] then none else some f', none⟩, ⟨⟨hdigits, hne, ?_, rfl⟩, ⟨_, hw⟩, ?_⟩,
      ?_, ?_⟩
    · intro ds hds
      obtain ⟨-, rfl⟩ := by simpa using hds
      exact fun c hc => hf c (List.mem_append_left _ hc)
    · intro ds hds
      obtain ⟨hsome, rfl⟩ := by simpa using hds
      exact ⟨hsome, hzero, by omega⟩
    · rw [hpointed, ← List.append_assoc, hdrop]
      split <;> simp [Numeral.text]
    · have hdecimal : (Numeral.value ⟨w, if f' = [] then none else some f', none⟩).toRat =
          digitsValue (w ++ f') / 10 ^ f'.length := by
        split
        · simp_all [Decimal.toRat, Numeral.value]
        · simp [Decimal.toRat, Numeral.value, div_eq_mul_inv]
      rw [← List.append_assoc, digitsValue_append_zeros] at hvalue
      rw [hdecimal, ← hvalue, ← hlength, pow_add]
      push_cast
      rw [mul_div_mul_right _ _ (by positivity)]

theorem divideEven_exact {a b : ℕ} (hb : 0 < b) (h : b ∣ a) : divideEven a b = a / b := by
  have hmod : a % b = 0 := Nat.mod_eq_zero_of_dvd h
  rw [divideEven]
  simp only [hmod, mul_zero, Nat.compare_eq_lt.2 hb]

/-- As many places as the denominator asks for are not rounded. -/
theorem fixedChars_exact {q : ℚ} {m : ℕ} (h : q.den ∣ 10 ^ m) :
    ∃ n : ℕ, (n : ℚ) / 10 ^ m = |q| ∧
      fixedChars q m = (if q < 0 then ['-'] else []) ++ pointed n m := by
  have hdvd : q.den ∣ q.num.natAbs * 10 ^ m := h.mul_left _
  refine ⟨q.num.natAbs * 10 ^ m / q.den, ?_, ?_⟩
  · have hden : (q.den : ℚ) ≠ 0 := Nat.cast_ne_zero.2 q.den_nz
    have habs : |q| = q.num.natAbs / q.den := by
      conv_lhs => rw [← Rat.num_div_den q]
      rw [abs_div, Nat.abs_cast, Nat.cast_natAbs, Int.cast_abs]
    rw [Nat.cast_div hdvd hden, habs]
    push_cast
    field_simp
  · have hexact := divideEven_exact q.den_pos hdvd
    have hpow : Nat.pow 10 m = 10 ^ m := rfl
    rw [fixedChars, hpow, hexact]
    split <;> rfl

/-- A denominator of a number with finitely many places has no more of them than binary
digits. -/
theorem dvd_pow_log2 {n d : ℕ} (h : n ∣ 10 ^ d) : n ∣ 10 ^ n.log2 := by
  have hpos : n ≠ 0 := by
    rintro rfl
    simp at h
  have hten (k : ℕ) : 10 ^ k = 2 ^ k * 5 ^ k := by
    norm_num [← mul_pow]
  rw [hten, Nat.dvd_mul] at h
  obtain ⟨a, b, ha, hb, rfl⟩ := h
  obtain ⟨i, -, rfl⟩ := (Nat.dvd_prime_pow Nat.prime_two).1 ha
  obtain ⟨j, -, rfl⟩ := (Nat.dvd_prime_pow Nat.prime_five).1 hb
  rw [hten]
  refine mul_dvd_mul (pow_dvd_pow 2 ?_) (pow_dvd_pow 5 ?_)
  · rw [Nat.le_log2 hpos]
    exact Nat.le_mul_of_pos_right _ (by positivity)
  · rw [Nat.le_log2 hpos]
    calc 2 ^ j ≤ 5 ^ j := Nat.pow_le_pow_left (by norm_num) j
      _ ≤ 2 ^ i * 5 ^ j := Nat.le_mul_of_pos_left _ (by positivity)

theorem den_roundTo_dvd (x : ℚ) (places : ℕ) : (roundTo x places).den ∣ 10 ^ places := by
  obtain ⟨k, hk⟩ := exists_int_roundTo x places
  have hdvd := Rat.den_dvd k (10 ^ places)
  rw [Rat.divInt_eq_div] at hdvd
  push_cast at hdvd
  rw [← hk] at hdvd
  exact_mod_cast hdvd

/-! ## The text -/

theorem roundedText_def (x : ℚ) (places : ℕ) : roundedText x places =
    if roundTo x places = 0 then "0"
    else String.ofList (dropZeros (fixedChars (roundTo x places)
      (min places (roundTo x places).den.log2))) := by
  have hzero : (0.0 : ℚ) = 0 := by norm_num
  rw [roundedText, hzero]
  exact if_congr beq_iff_eq rfl rfl

/-- The text of a rounded number is its sign and a literal of its magnitude. -/
theorem roundedText_exact (x : ℚ) (places : ℕ) : ∃ n : Numeral, IsTrimmed n places ∧
    (roundedText x places).toList = (if roundTo x places < 0 then ['-'] else []) ++ n.text ∧
      n.value.toRat = |roundTo x places| := by
  rw [roundedText_def]
  by_cases hzero : roundTo x places = 0
  · rw [if_pos hzero, hzero, abs_zero, if_neg (lt_irrefl 0)]
    refine ⟨⟨digitChars 0, none, none⟩,
      ⟨⟨allDigits_digitChars 0, digitChars_ne_nil 0, by simp, rfl⟩, ⟨0, rfl⟩, by simp⟩, rfl, ?_⟩
    simp [Decimal.toRat, Numeral.value, digitsValue_digitChars]
  · have hdvd : (roundTo x places).den ∣ 10 ^ min places (roundTo x places).den.log2 := by
      rcases min_choice places (roundTo x places).den.log2 with hmin | hmin <;> rw [hmin]
      · exact den_roundTo_dvd x places
      · exact dvd_pow_log2 (den_roundTo_dvd x places)
    have hsign : (if roundTo x places < 0 then ['-'] else []) = [] ∨
        (if roundTo x places < 0 then ['-'] else []) = ['-'] := by
      split <;> simp
    obtain ⟨k, hk, hfixed⟩ := fixedChars_exact hdvd
    obtain ⟨n, hn, htext, hvalue⟩ :=
      exists_trimmed hsign k (min places (roundTo x places).den.log2)
    refine ⟨n, hn.mono (min_le_left _ _), ?_, by rw [hvalue, hk]⟩
    rw [if_neg hzero, String.toList_ofList, hfixed, htext]

/-- Over the rationals a number is rounded to a nearest multiple of the last place, to the even
one of two, as long as the exponent of ten fits the 32 bits it has; the two factors of the power
of ten only stand for it. Rounding is odd, monotone and idempotent, and its text is the sign of a
negative number before a literal of the magnitude, with no zero at the end of a fraction and at
most `places` digits in it. -/
theorem roundTo_roundedText (x : ℚ) (places : ℕ) :
    (places < 2 ^ 31 + 22 →
      (scaleFactors places : ℚ × ℚ).1 * (scaleFactors places : ℚ × ℚ).2 = 10 ^ places ∧
      roundTo x places = roundEven (x * 10 ^ places) / 10 ^ places ∧
      ∃ k : ℤ, roundTo x places = k / 10 ^ places ∧
        |roundTo x places - x| ≤ 1 / 10 ^ places / 2 ∧
        (|roundTo x places - x| = 1 / 10 ^ places / 2 → Even k)) ∧
    roundTo (-x) places = -roundTo x places ∧
    (∀ y, x ≤ y → roundTo x places ≤ roundTo y places) ∧
    roundTo (roundTo x places) places = roundTo x places ∧
    ∃ n : Numeral, IsTrimmed n places ∧
      (roundedText x places).toList = (if roundTo x places < 0 then ['-'] else []) ++ n.text ∧
      n.value.toRat = |roundTo x places| := by
  refine ⟨fun hplaces => ?_, roundTo_neg x places, fun y => roundTo_monotone,
    roundTo_roundTo x places, roundedText_exact x places⟩
  have hscale : (10 : ℚ) ^ scalePlaces places = 10 ^ places := by
    rw [scalePlaces_eq hplaces, zpow_natCast]
  have hmul := scaleFactors_mul places
  have hround := roundTo_eq x places
  obtain ⟨k, hk, hnear⟩ := roundTo_exact x places
  rw [hscale] at hmul hround hk hnear
  refine ⟨hmul, hround, k, hk, ?_⟩
  have hpos : (0 : ℚ) < 10 ^ places := by positivity
  -- the error is that of the integer, in units of the last place
  have herror : |roundTo x places - x| = |(k : ℚ) - x * 10 ^ places| / 10 ^ places := by
    rw [hk, ← abs_of_pos hpos, ← abs_div, abs_of_pos hpos, sub_div,
      mul_div_cancel_right₀ _ hpos.ne']
  rw [herror, div_right_comm]
  refine ⟨div_le_div_of_nonneg_right hnear.near hpos.le, fun htie => hnear.even ?_⟩
  exact (div_left_inj' hpos.ne').1 htie

/-- With 23 places the power of ten has two factors, and `-8/3` ends in a rounded digit. -/
theorem roundTo_roundedText_neg_eight_thirds : 23 < 2 ^ 31 + 22 ∧
    ∃ k : ℤ, roundTo (-8 / 3 : ℚ) 23 = k / 10 ^ 23 ∧
      |roundTo (-8 / 3 : ℚ) 23 - -8 / 3| ≤ 1 / 10 ^ 23 / 2 ∧
      (|roundTo (-8 / 3 : ℚ) 23 - -8 / 3| = 1 / 10 ^ 23 / 2 → Even k) :=
  ⟨by norm_num, ((roundTo_roundedText (-8 / 3) 23).1 (by norm_num)).2.2⟩

end Quadrature
