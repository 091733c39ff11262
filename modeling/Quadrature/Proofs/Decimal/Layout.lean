import Quadrature.Proofs.Decimal.Numeral
import Quadrature.Proofs.Decimal.ReadBack

/-!
# Plain texts are literals

Laid out with digits and a point only, a decimal is a literal without a power of ten
that stands for the same decimal, so `plainText` of a finite double is its sign and a
literal that reads back to its magnitude (`plainText_spells`).
-/

namespace Quadrature

section Digits

theorem digitsValue_eq (cs : List Char) : digitsValue cs = Nat.ofDigitChars 10 cs 0 := rfl

theorem digitsValue_digitChars (n : Nat) : digitsValue (digitChars n) = n :=
  Nat.ofDigitChars_ten_toDigits

theorem digitsValue_append_zeros (cs : List Char) (k : Nat) :
    digitsValue (cs ++ List.replicate k '0') = digitsValue cs * 10 ^ k := by
  rw [digitsValue_eq, Nat.ofDigitChars_append, Nat.ofDigitChars_replicate_zero, Nat.mul_comm]
  rfl

theorem digitsValue_zeros_append (cs : List Char) (k : Nat) :
    digitsValue (List.replicate k '0' ++ cs) = digitsValue cs := by
  rw [digitsValue_eq, Nat.ofDigitChars_append, Nat.ofDigitChars_replicate_zero, Nat.mul_zero]
  rfl

theorem allDigits_digitChars (n : Nat) : AllDigits (digitChars n) := by
  intro c hc
  exact Nat.isDigit_of_mem_toDigits (by decide) (by decide) hc

theorem allDigits_zeros (k : Nat) : AllDigits (List.replicate k '0') := by
  intro c hc
  rw [List.eq_of_mem_replicate hc]
  rfl

theorem AllDigits.append {cs ds : List Char} (hc : AllDigits cs) (hd : AllDigits ds) :
    AllDigits (cs ++ ds) := by
  intro c h
  exact (List.mem_append.1 h).elim (hc c) (hd c)

theorem digitChars_ne_nil (n : Nat) : digitChars n ≠ [] := Nat.toDigits_ne_nil

theorem digitsValue_lt {cs : List Char} (h : AllDigits cs) : digitsValue cs < 10 ^ cs.length := by
  induction cs using List.reverseRecOn with
  | nil => exact Nat.one_pos
  | append_singleton cs c ih =>
    have hcs := ih fun d hd => h d (List.mem_append_left _ hd)
    have hc : c.isDigit = true := h c (List.mem_append_right _ List.mem_cons_self)
    have hhigh : c.toNat ≤ 57 := (Char.isDigit_iff_toNat.1 hc).2
    rw [digitsValue, List.foldl_append, List.length_append, List.length_singleton, pow_succ]
    show 10 * digitsValue cs + (c.toNat - 48) < _
    omega

end Digits

/-- A literal with no power of ten, as it is laid out. -/
structure IsPlain (n : Numeral) : Prop where
  whole : AllDigits n.whole
  nonempty : n.whole ≠ []
  fraction : ∀ ds, n.fraction = some ds → AllDigits ds
  power : n.power = none

theorem IsPlain.isLiteral {n : Numeral} (h : IsPlain n) (isMark : Char → Bool) :
    n.IsLiteral isMark := by
  refine ⟨h.whole, h.fraction, .inl h.nonempty, ?_⟩
  intro p hp
  rw [h.power] at hp
  cases hp

theorem positional_plain (d : Decimal) :
    ∃ n : Numeral, IsPlain n ∧ n.text = d.positional ∧ n.value = d.unscaled := by
  obtain ⟨n, e⟩ := d
  have hd := allDigits_digitChars n
  have hne := digitChars_ne_nil n
  have hval := digitsValue_digitChars n
  unfold Decimal.positional Decimal.unscaled
  dsimp only
  by_cases he : 0 ≤ e
  · rw [if_pos he, if_pos he]
    refine ⟨⟨digitChars n ++ List.replicate e.toNat '0', none, none⟩,
      ⟨hd.append (allDigits_zeros _), by simp [hne], by simp, rfl⟩, by simp [Numeral.text], ?_⟩
    show (⟨digitsValue (digitChars n ++ List.replicate e.toNat '0' ++ []), 0 - 0⟩ : Decimal) = _
    rw [List.append_nil, digitsValue_append_zeros, hval]
    rfl
  rw [if_neg he, if_neg he]
  generalize hp : (-e).toNat = places
  by_cases hlen : places < (digitChars n).length
  · rw [if_pos hlen]
    generalize hk : (digitChars n).length - places = k
    refine ⟨⟨(digitChars n).take k, some ((digitChars n).drop k), none⟩, ⟨?_, ?_, ?_, rfl⟩,
      by simp [Numeral.text], ?_⟩
    · exact fun c hc => hd c (List.mem_of_mem_take hc)
    · rw [Ne, List.take_eq_nil_iff, not_or]
      exact ⟨by omega, hne⟩
    · rintro ds ⟨⟩
      exact fun c hc => hd c (List.mem_of_mem_drop hc)
    · show (⟨digitsValue ((digitChars n).take k ++ (digitChars n).drop k),
        0 - ((digitChars n).drop k).length⟩ : Decimal) = _
      rw [List.take_append_drop, hval, List.length_drop]
      have hexp : 0 - (((digitChars n).length - k : Nat) : Int) = e := by omega
      rw [hexp]
  · rw [if_neg hlen]
    refine ⟨⟨['0'], some (List.replicate (places - (digitChars n).length) '0' ++ digitChars n),
      none⟩, ⟨?_, by simp, ?_, rfl⟩, by simp [Numeral.text], ?_⟩
    · exact allDigits_zeros 1
    · rintro ds ⟨⟩
      exact (allDigits_zeros _).append hd
    · show (⟨digitsValue (List.replicate 1 '0' ++
        (List.replicate (places - (digitChars n).length) '0' ++ digitChars n)),
        0 - (List.replicate (places - (digitChars n).length) '0' ++ digitChars n).length⟩ :
          Decimal) = _
      rw [digitsValue_zeros_append, digitsValue_zeros_append, hval, List.length_append,
        List.length_replicate]
      have hexp : 0 - ((places - (digitChars n).length + (digitChars n).length : Nat) : Int) = e := by
        omega
      rw [hexp]

/-- The text of a finite double: its sign, and a literal that reads back to its magnitude. -/
theorem plainText_spells {x : Float} (hx : x.isFinite = true) :
    ∃ n : Numeral, IsPlain n ∧ (plainText x).toList = (signText x).toList ++ n.text ∧
      n.value.toFloat = x.abs := by
  have hfin : x.toModel.unpack.isFinite = true := hx
  have hnan : x.isNaN = false := by
    show x.toModel.unpack.isNaN = false
    cases hu : x.toModel.unpack with
    | notANumber => rw [hu] at hfin; cases hfin
    | infinity | zero | finite => rfl
  unfold plainText
  rw [if_neg (by rw [hnan]; decide), if_neg (by rw [hx]; decide)]
  by_cases hzero : (x == 0.0) = true
  · rw [if_pos hzero]
    obtain ⟨s, hu⟩ := beq_zero_iff.1 hzero
    refine ⟨⟨['0'], none, none⟩, ⟨allDigits_zeros 1, by simp, by simp, rfl⟩,
      by rw [String.toList_append]; rfl, ?_⟩
    rw [abs_eq_zero hu]
    rfl
  · rw [if_neg hzero]
    cases hu : x.toModel.unpack with
    | notANumber | infinity => rw [hu] at hfin; cases hfin
    | zero s => exact absurd (beq_zero_iff.2 ⟨s, hu⟩) hzero
    | finite s m e hm =>
      obtain ⟨n, hn, htext, hvalue⟩ := positional_plain (shortest .up x)
      refine ⟨n, hn, ?_, ?_⟩
      · rw [String.toList_append, String.toList_ofList, htext]
      · rw [hvalue, toFloat_shortest .up hu]

end Quadrature
