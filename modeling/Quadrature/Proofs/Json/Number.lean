import Quadrature.Json.Lexer
import Quadrature.Proofs.Decimal.Layout
import Quadrature.Proofs.Scalar.Arithmetic

/-!
# Numbers read back

`Numeral.IsStrict` says how documents write numbers. A strict numeral is read as it was
written, whatever does not continue it (`numeral?_text`), and the numbers that are written for
natural numbers and for doubles are strict. `JsonNumber.ReadsBack` says that a double is read
as what it was; it is false of some doubles with seventeen digits, whose text is read as that
of a neighbour.
-/

namespace Quadrature

/-- The marks of a power of ten. -/
abbrev isPowerMark (c : Char) : Bool := c == 'e' || c == 'E'

/-- No needless zero in front, and digits on both sides of a point. -/
structure Numeral.IsStrict (n : Numeral) : Prop where
  whole : AllDigits n.whole
  nonempty : n.whole ≠ []
  leading : n.whole.head? = some '0' → n.whole.length = 1
  fraction : ∀ ds, n.fraction = some ds → AllDigits ds ∧ ds ≠ []
  power : ∀ p, n.power = some p → p.IsWritten isPowerMark

/-! ## Reading -/

namespace JsonToken

variable {n : Numeral} {p : TenPower} {ds rest : List Char}

theorem powerPart?_text (hp : p.IsWritten isPowerMark) (hrest : Undigited rest) :
    powerPart? (p.text ++ rest) = some (some p, rest) := by
  have hscan : TenPower.scan (fun _ => true) (p.text ++ rest) = some (p, rest) := by
    rw [TenPower.scan_append ⟨rfl, hp.sign, hp.digits, hp.nonempty⟩, hrest.takeWhile,
      hrest.dropWhile, List.append_nil]
  have hhead : (p.text ++ rest).head? = some p.mark := rfl
  rw [powerPart?, hhead]
  rcases Bool.or_eq_true_iff.1 hp.mark with h | h
  · rw [beq_iff_eq.1 h]
    simp only [hscan, Option.map_some]
  · rw [beq_iff_eq.1 h]
    simp only [hscan, Option.map_some]

theorem powerPart?_none (hrest : Numeral.Ends isPowerMark rest) :
    powerPart? rest = some (none, rest) := by
  rw [powerPart?]
  split
  · next h => exact absurd (hrest _ h).2.2 (by decide)
  · next h => exact absurd (hrest _ h).2.2 (by decide)
  · rfl

theorem fractionPart?_point (hds : AllDigits ds) (hne : ds ≠ []) (hrest : Undigited rest) :
    fractionPart? ('.' :: (ds ++ rest)) = some (some ds, rest) := by
  rw [fractionPart?, hrest.takeWhile_append hds, hrest.dropWhile_append hds,
    if_neg (by simpa using hne)]

theorem fractionPart?_none (hrest : ∀ c, rest.head? = some c → c ≠ '.') :
    fractionPart? rest = some (none, rest) := by
  unfold fractionPart?
  split
  · exact absurd rfl (hrest _ rfl)
  · rfl

/-- What follows the whole part. -/
theorem fractionPart?_text (h : n.IsStrict) (hrest : Numeral.Ends isPowerMark rest) :
    ∃ tail, fractionPart? (n.fraction.elim [] ('.' :: ·) ++ n.power.elim [] TenPower.text ++ rest) =
        some (n.fraction, tail) ∧ powerPart? tail = some (n.power, rest) := by
  have hpower : ∃ tail, n.power.elim [] TenPower.text ++ rest = tail ∧ Undigited tail ∧
      (∀ c, tail.head? = some c → c ≠ '.') ∧ powerPart? tail = some (n.power, rest) := by
    cases hp : n.power with
    | none => exact ⟨rest, rfl, hrest.undigited, fun c hc => (hrest c hc).2.1, powerPart?_none hrest⟩
    | some p =>
      have hw := h.power p hp
      refine ⟨p.text ++ rest, rfl, Numeral.undigited_power Numeral.marks_eE hw rest, ?_,
        powerPart?_text hw hrest.undigited⟩
      rintro c hc
      cases hc
      exact (Numeral.marks_eE _ hw.mark).2
  obtain ⟨tail, htail, hundigited, hpoint, hread⟩ := hpower
  refine ⟨tail, ?_, hread⟩
  rw [List.append_assoc, htail]
  cases hf : n.fraction with
  | none => exact fractionPart?_none hpoint
  | some ds => exact fractionPart?_point (h.fraction ds hf).1 (h.fraction ds hf).2 hundigited

/-- A strict numeral is taken off a text that does not continue it. -/
theorem numeral?_text (h : n.IsStrict) (hrest : Numeral.Ends isPowerMark rest) :
    numeral? (n.text ++ rest) = some (n, rest) := by
  obtain ⟨tail, hfraction, hpower⟩ := fractionPart?_text h hrest
  have htext : n.text ++ rest = n.whole ++
      (n.fraction.elim [] ('.' :: ·) ++ n.power.elim [] TenPower.text ++ rest) := by
    rw [Numeral.text, List.append_assoc, List.append_assoc, List.append_assoc]
  have hundigited : Undigited
      (n.fraction.elim [] ('.' :: ·) ++ n.power.elim [] TenPower.text ++ rest) := by
    cases hf : n.fraction with
    | some ds => exact Numeral.undigited_point _
    | none =>
      cases hp : n.power with
      | none => exact hrest.undigited
      | some p => exact Numeral.undigited_power Numeral.marks_eE (h.power p hp) rest
  have hleading : (n.whole.isEmpty ||
      (n.whole.head? == some '0' && decide (1 < n.whole.length))) = false := by
    rw [Bool.or_eq_false_iff, Bool.and_eq_false_iff]
    refine ⟨by simpa using h.nonempty, ?_⟩
    by_cases hzero : n.whole.head? = some '0'
    · exact .inr (by simp [h.leading hzero])
    · exact .inl (by simpa using hzero)
  rw [numeral?, htext, hundigited.takeWhile_append h.whole, hundigited.dropWhile_append h.whole]
  dsimp only
  rw [hleading, hfraction, if_neg Bool.false_ne_true]
  dsimp only
  rw [hpower, Option.map_some]

theorem first?_digit {c : Char} (hc : c.isDigit = true) (cs : List Char) :
    first? c cs = (numeral? (c :: cs)).map fun r => (number ⟨false, r.1⟩, r.2) := by
  unfold first?
  split
  all_goals first | rfl | exact absurd hc (by decide)

theorem isBlank_digit {c : Char} (hc : c.isDigit = true) : isBlank c = false := by
  rw [← Bool.not_eq_true]
  intro h
  simp only [isBlank, Bool.or_eq_true, beq_iff_eq] at h
  rcases h with ((rfl | rfl) | rfl) | rfl <;> exact absurd hc (by decide)

/-- The text of a number is its token. -/
theorem first?_number {n : JsonNumber} (h : n.numeral.IsStrict)
    (hrest : Numeral.Ends isPowerMark rest) :
    ∃ c cs, n.text = c :: cs ∧ isBlank c = false ∧
      first? c (cs ++ rest) = some (number n, rest) := by
  obtain ⟨negative, n⟩ := n
  cases negative with
  | true =>
    refine ⟨'-', n.text, rfl, rfl, ?_⟩
    rw [first?, numeral?_text h hrest, Option.map_some]
  | false =>
    obtain ⟨c, cs, hwhole⟩ := List.exists_cons_of_ne_nil h.nonempty
    have hc : c.isDigit = true := h.whole c (hwhole ▸ List.mem_cons_self)
    have htext : n.text = c :: (cs ++ n.fraction.elim [] ('.' :: ·) ++
        n.power.elim [] TenPower.text) := by
      rw [Numeral.text, show n.whole = c :: cs from hwhole]
      rfl
    have hread := numeral?_text h hrest
    rw [htext, List.cons_append] at hread
    refine ⟨c, _, htext, isBlank_digit hc, ?_⟩
    rw [first?_digit hc, hread, Option.map_some]

end JsonToken

/-! ## Writing -/

theorem head?_digitChars {n : Nat} (h : (digitChars n).head? = some '0') : n = 0 := by
  induction n using Nat.strongRecOn with
  | ind n ih =>
    by_cases hn : n < 10
    · rw [digitChars, Nat.toDigits_of_lt_base hn, List.head?_cons] at h
      exact Nat.digitChar_eq_zero.1 (Option.some.inj h)
    · have hle : 10 ≤ n := by omega
      rw [digitChars, Nat.toDigits_of_base_le (by decide) hle,
        List.head?_append_of_ne_nil _ Nat.toDigits_ne_nil] at h
      have := ih (n / 10) (by omega) h
      omega

namespace JsonNumber

/-- The number of a double is read as the double. -/
def ReadsBack (x : Float) : Prop :=
  (ofFloat x).toFloat? = some x

instance (x : Float) : Decidable (ReadsBack x) :=
  inferInstanceAs (Decidable (_ = _))

/-- With seventeen digits the division by a power of ten is one rounding too many. -/
theorem exists_not_readsBack : ∃ x : Float, x.isFinite = true ∧ ¬ ReadsBack x :=
  ⟨3.3044405296732506, by decide +kernel, by decide +kernel⟩

theorem leading_digitChars {n : Nat} (h : (digitChars n).head? = some '0') :
    (digitChars n).length = 1 := by
  rw [head?_digitChars h]
  rfl

theorem isStrict_ofNat (n : Nat) : (ofNat n).numeral.IsStrict :=
  ⟨allDigits_digitChars n, digitChars_ne_nil n, leading_digitChars, nofun, nofun⟩

theorem toNat?_ofNat {n : Nat} (h : n < UInt64.size) : (ofNat n).toNat? = some n := by
  show (if digitsValue (digitChars n) < UInt64.size then some (digitsValue (digitChars n)) else none) =
    some n
  rw [digitsValue_digitChars, if_pos h]

theorem isStrict_ofDecimal {d : Decimal} (hd : d.digits ≠ 0) : (ofDecimal d).IsStrict := by
  obtain ⟨n, e⟩ := d
  have hds := allDigits_digitChars n
  have hne := digitChars_ne_nil n
  have hhead : (digitChars n).head? ≠ some '0' := fun h => hd (head?_digitChars h)
  have hlen : 0 < (digitChars n).length := Nat.length_toDigits_pos
  unfold ofDecimal
  dsimp only
  by_cases horder : -5 ≤ (⟨n, e⟩ : Decimal).order ∧ (⟨n, e⟩ : Decimal).order ≤ 15
  · rw [if_pos horder]
    by_cases he : 0 ≤ e
    · rw [if_pos he]
      refine ⟨hds.append (allDigits_zeros _), by simp [hne], fun h => ?_, ?_, nofun⟩
      · rw [List.head?_append_of_ne_nil _ hne] at h
        exact absurd h hhead
      · rintro ds ⟨⟩
        exact ⟨allDigits_zeros 1, by decide⟩
    · rw [if_neg he]
      by_cases hplaces : (-e).toNat < (digitChars n).length
      · rw [if_pos hplaces]
        refine ⟨fun c hc => hds c (List.mem_of_mem_take hc), ?_, fun h => ?_, ?_,
          nofun⟩
        · rw [Ne, List.take_eq_nil_iff, not_or]
          exact ⟨by omega, hne⟩
        · rw [List.head?_take, if_neg (by omega)] at h
          exact absurd h hhead
        · rintro ds ⟨⟩
          refine ⟨fun c hc => hds c (List.mem_of_mem_drop hc), ?_⟩
          rw [Ne, List.drop_eq_nil_iff]
          omega
      · rw [if_neg hplaces]
        refine ⟨allDigits_zeros 1, List.cons_ne_nil _ _, fun _ => rfl, ?_, nofun⟩
        rintro ds ⟨⟩
        exact ⟨(allDigits_zeros _).append hds, by simp [hne]⟩
  · rw [if_neg horder]
    have hpower : TenPower.IsWritten isPowerMark
        ⟨'e', some (if (⟨n, e⟩ : Decimal).order < 0 then '-' else '+'),
          digitChars (⟨n, e⟩ : Decimal).order.natAbs⟩ := by
      refine ⟨rfl, ?_, allDigits_digitChars _, digitChars_ne_nil _⟩
      by_cases hneg : (⟨n, e⟩ : Decimal).order < 0
      · exact .inr (.inr (by rw [if_pos hneg]))
      · exact .inr (.inl (by rw [if_neg hneg]))
    split
    · exact ⟨hds, hne, fun h => absurd h hhead, nofun,
        fun p hp => Option.some.inj hp ▸ hpower⟩
    · next hdrop =>
      refine ⟨fun c hc => hds c (List.mem_of_mem_take hc), ?_, fun h => ?_, ?_,
        fun p hp => Option.some.inj hp ▸ hpower⟩
      · rw [Ne, List.take_eq_nil_iff, not_or]
        exact ⟨by decide, hne⟩
      · rw [List.head?_take, if_neg (by decide)] at h
        exact absurd h hhead
      · rintro ds ⟨⟩
        exact ⟨fun c hc => hds c (List.mem_of_mem_drop hc), hdrop⟩

theorem toFloat_unscaled_zero {d : Decimal} (hd : d.digits = 0) : d.unscaled.toFloat = 0.0 := by
  have hzero : d.unscaled.digits = 0 := by
    rw [Decimal.unscaled]
    split
    · rw [hd, Nat.zero_mul]
    · exact hd
  rw [Decimal.toFloat, if_neg (fun h => h.1 hzero), hzero]
  rfl

/-- The shortest digits of a double other than zero are not zero, since they read back. -/
theorem isStrict_ofFloat {x : Float} (hx : x.isFinite = true) : (ofFloat x).numeral.IsStrict := by
  have hfin : x.toModel.unpack.isFinite = true := hx
  unfold ofFloat
  dsimp only
  by_cases hzero : (x == 0.0) = true
  · rw [if_pos hzero]
    refine ⟨allDigits_zeros 1, by decide, fun _ => rfl, ?_, nofun⟩
    rintro ds ⟨⟩
    exact ⟨allDigits_zeros 1, by decide⟩
  · rw [if_neg hzero]
    refine isStrict_ofDecimal fun hdigits => hzero ?_
    cases hu : x.toModel.unpack with
    | notANumber | infinity => rw [hu] at hfin; cases hfin
    | zero s => exact beq_zero_iff.2 ⟨s, hu⟩
    | finite s m e hm =>
      have habs : x.abs = 0.0 := by
        rw [← toFloat_shortest .even hu, toFloat_unscaled_zero hdigits]
      have hvalue := (value_abs hx).2
      rw [habs, value_literal_zero.2] at hvalue
      exact (beq_zero_iff_value hx).2 (abs_nonpos_iff.1 hvalue.ge)

end JsonNumber

/-! ## Values -/

theorem takeSignificand_lt {s : Nat} (cs : List Char) (h : s < UInt64.size) :
    (takeSignificand s cs).1 < UInt64.size := by
  fun_induction takeSignificand s cs with
  | case1 => exact h
  | case2 s c cs t ht ih => exact ih ht
  | case3 => exact h

/-- The powers of ten that have a double. -/
theorem powerOfTen {k : Nat} (hk : k ≤ 308) :
    (Float.ofScientific 1 false k).isFinite = true ∧
      1 ≤ Scalar.value (Float.ofScientific 1 false k) := by
  rcases Nat.lt_or_ge 22 k with hlarge | hsmall
  · have hcast : Float.ofScientific 1 false k = .ofModel (.ofScientific 1 (k : Int)) := by
      rw [Float.ofScientific, dif_neg (by omega)]
      rfl
    have hround : Rounds ((10 ^ k : ℕ) : ℚ) (Float.ofScientific 1 false k) := by
      have hround := rounds_ofScientific Nat.one_pos (show k ≤ 2 ^ 11 by omega)
      rwa [one_mul, ← hcast] at hround
    have hlt : |((10 ^ k : ℕ) : ℚ)| < overflow := by
      rw [Nat.abs_cast]
      have hgreatest : 10 ^ k ≤ (2 ^ 53 - 1) * 2 ^ 971 :=
        calc 10 ^ k ≤ 10 ^ (154 * 2) := Nat.pow_le_pow_right (by decide) hk
          _ = (10 ^ 154) ^ 2 := pow_mul 10 154 2
          _ ≤ (2 ^ 53 - 1) * (2 ^ 203 * (2 ^ 256) ^ 3) := by norm_num
          _ = (2 ^ 53 - 1) * 2 ^ 971 := by rw [← pow_mul, ← pow_add]
      calc ((10 ^ k : ℕ) : ℚ) ≤ ((2 ^ 53 - 1) * 2 ^ 971 : ℕ) := Nat.cast_le.2 hgreatest
        _ = (2 ^ 53 - 1 : ℕ) * 2 ^ (971 : ℤ) := by
            rw [Nat.cast_mul, Nat.cast_pow]
            rfl
        _ < overflow := isField_lt ⟨by decide, by decide, by decide, by decide, .inl (by decide)⟩
    have hfin := hround.isFinite_iff.2 hlt
    have hone : ((1 : ℕ) : ℚ) ≤ (10 ^ k : ℕ) := by exact_mod_cast Nat.one_le_pow k 10 (by decide)
    have hle := hround.representable_le hfin (representable_natCast (by decide)) hone
    rw [Nat.cast_one] at hle
    exact ⟨hfin, hle⟩
  · have h : ∀ k < 23, (Float.ofScientific 1 false k).isFinite = true ∧
        1.0 ≤ Float.ofScientific 1 false k := by decide +kernel
    obtain ⟨hfin, hle⟩ := h k (by omega)
    refine ⟨hfin, ?_⟩
    rw [← value_literal_one.2]
    exact (le_iff value_literal_one.1 hfin).1 hle

theorem isFinite_div_of_one_le {x y : Float} (hx : x.isFinite = true) (hy : y.isFinite = true)
    (h : 1 ≤ Scalar.value y) : (x / y).isFinite = true := by
  refine (rounds_div hx hy (by linarith)).isFinite_iff.2 ?_
  rw [abs_div, abs_of_pos (by linarith : 0 < Scalar.value y)]
  exact (div_le_self (abs_nonneg _) h).trans_lt (abs_value_lt hx)

theorem isFinite_scaleByTen {x y : Float} {e : Int} (hx : x.isFinite = true)
    (h : scaleByTen x e = some y) : y.isFinite = true := by
  fun_induction scaleByTen x e with
  | case1 x e he p hneg =>
    cases h
    exact isFinite_div_of_one_le hx (powerOfTen he).1 (powerOfTen he).2
  | case2 x e he p hneg hfin => cases h; exact hfin
  | case3 => cases h
  | case4 x e he hzero => cases h; exact hx
  | case5 => cases h
  | case6 x e he hzero hpos ih =>
    exact ih (isFinite_div_of_one_le hx (powerOfTen le_rfl).1 (powerOfTen le_rfl).2) h

namespace JsonNumber

/-- No number is read as an infinity. -/
theorem isFinite_toFloat? {n : JsonNumber} {x : Float} (h : n.toFloat? = some x) :
    x.isFinite = true := by
  obtain ⟨y, hy, rfl⟩ := Option.map_eq_some_iff.1 h
  have hdigits : (scaled n.numeral).digits < UInt64.size :=
    takeSignificand_lt _ (takeSignificand_lt _ (by decide))
  have hlt : |((scaled n.numeral).digits : ℚ)| < overflow := by
    rw [Nat.abs_cast]
    calc ((scaled n.numeral).digits : ℚ) < 2 ^ (64 : ℤ) := by exact_mod_cast hdigits
      _ ≤ overflow := zpow_le_overflow (by norm_num)
  have hfin := isFinite_scaleByTen ((rounds_natCast _).isFinite_iff.2 hlt) hy
  split
  · exact (value_neg hfin).1
  · exact hfin

end JsonNumber

end Quadrature
