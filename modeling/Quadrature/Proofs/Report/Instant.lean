import Quadrature.Proofs.Decimal.Layout
import Quadrature.Proofs.Report.Date
import Quadrature.Report.Instant

/-!
# Instants read back

`Instant.IsValid` says which instants there are. What is read is one of them
(`Instant.isValid_of_ofText?`), and each of them is read from its text
(`Instant.ofText?_text`), whose offset is none and whose fraction ends with the last digit
that counts.
-/

namespace Quadrature

namespace Instant

/-! ## Digits -/

theorem allDigits_padded (width n : Nat) : AllDigits (padded width n) :=
  (allDigits_zeros _).append (allDigits_digitChars n)

theorem digitsValue_padded (width n : Nat) : digitsValue (padded width n) = n := by
  rw [padded, digitsValue_zeros_append, digitsValue_digitChars]

theorem padded_ne_nil (width n : Nat) : padded width n ≠ [] := by
  rw [padded, Ne, List.append_eq_nil_iff, not_and]
  exact fun _ => digitChars_ne_nil n

theorem length_padded {width n : Nat} (hwidth : 0 < width) (h : n < 10 ^ width) :
    (padded width n).length = width := by
  have hlen : (digitChars n).length ≤ width := (Nat.length_toDigits_le_iff (by decide) hwidth).2 h
  rw [padded, List.length_append, List.length_replicate]
  omega

theorem isBlank_digit {c : Char} (hc : c.isDigit = true) : Text.isBlank c = false := by
  obtain ⟨hlow, hhigh⟩ : 48 ≤ c.toNat ∧ c.toNat ≤ 57 := Char.isDigit_iff_toNat.1 hc
  simp only [Text.isBlank, Text.blankRanges, List.any_cons, List.any_nil, Bool.or_false,
    Bool.or_eq_false_iff, Bool.and_eq_false_iff, decide_eq_false_iff_not]
  omega

/-! ## Readers -/

section Readers

variable {α β : Type} {p : Reader α} {f : α → Reader β} {x : α} {cs ds rest : List Char}

theorem run_bind_of (h : p.run cs = some (x, rest)) : (p >>= f).run cs = (f x).run rest := by
  rw [StateT.run_bind, h]
  rfl

theorem run_blanks (h : ∀ c, cs.head? = some c → Text.isBlank c = false) :
    blanks.run cs = some ((), cs) := by
  have hdrop : cs.dropWhile Text.isBlank = cs := by
    cases cs with
    | nil => rfl
    | cons c cs => rw [List.dropWhile_cons_of_neg (by rw [h c rfl]; exact Bool.false_ne_true)]
  show some ((), cs.dropWhile Text.isBlank) = _
  rw [hdrop]

theorem run_next {test : Char → Bool} {c : Char} (h : test c = true) :
    (next test).run (c :: cs) = some (c, cs) := by
  simp [next, h]

theorem run_discard (h : p.run cs = some (x, rest)) : (discard p).run cs = some ((), rest) := by
  show (p.run cs).bind (fun r => some ((), r.2)) = _
  rw [h]
  rfl

theorem run_digits {most : Nat} (hds : AllDigits ds) (hne : ds ≠ []) (hle : ds.length ≤ most)
    (hrest : Undigited (rest.take (most - ds.length))) :
    (digits most).run (ds ++ rest) = some (ds, rest) := by
  have htake : ((ds ++ rest).take most).takeWhile Char.isDigit = ds := by
    rw [List.take_append, List.take_of_length_le hle, hrest.takeWhile_append hds]
  simp only [digits, StateT.run_bind, StateT.run_get, Option.pure_def, Option.bind_eq_bind,
    Option.bind_some, htake]
  rw [if_neg (by simpa using hne), List.drop_left]
  rfl

theorem run_padded {most n width : Nat} (hwidth : 0 < width) (h : n < 10 ^ width)
    (hle : width ≤ most) (hrest : Undigited (rest.take (most - width))) :
    (digits most).run (padded width n ++ rest) = some (padded width n, rest) := by
  have hlength := length_padded hwidth h
  exact run_digits (allDigits_padded width n) (padded_ne_nil width n) (hlength.trans_le hle)
    (by rwa [hlength])

theorem run_number {most n width : Nat} (hwidth : 0 < width) (h : n < 10 ^ width)
    (hle : width ≤ most) (hrest : Undigited (rest.take (most - width))) :
    (number most).run (padded width n ++ rest) = some (n, rest) := by
  have hblanks : ∀ c, (padded width n ++ rest).head? = some c → Text.isBlank c = false := by
    intro c hc
    rw [List.head?_append_of_ne_nil _ (padded_ne_nil width n)] at hc
    exact isBlank_digit (allDigits_padded width n c (List.mem_of_mem_head? hc))
  rw [number, run_bind_of (run_blanks hblanks),
    run_bind_of (run_padded hwidth h hle hrest), digitsValue_padded]
  rfl

theorem run_mark {c : Char} (hc : Text.isBlank c = false) :
    (mark c).run (c :: cs) = some ((), cs) := by
  rw [mark, run_bind_of (run_blanks fun d hd => by cases hd; exact hc)]
  exact run_discard (run_next (beq_self_eq_true c))

/-! ## Parts of a text -/

theorem undigited_mark {c : Char} (hc : c.isDigit = false) (n : Nat) :
    Undigited ((c :: cs).take n) := by
  cases n with
  | zero => exact nofun
  | succ n => exact .cons hc

theorem undigited_fractionText (t : Instant) (n : Nat) :
    Undigited ((t.fractionText ++ ['Z']).take n) := by
  unfold fractionText
  dsimp only
  split
  · exact undigited_mark (by decide) n
  · split
    · exact undigited_mark (by decide) n
    · split <;> exact undigited_mark (by decide) n

theorem run_year (y : Int) (hrest : ∀ n, Undigited (rest.take n)) :
    year.run (yearText y ++ rest) = some (y, rest) := by
  have hblanks (c : Char) (hc : Text.isBlank c = false) (cs : List Char) :
      blanks.run (c :: cs) = some ((), c :: cs) :=
    run_blanks fun d hd => by cases hd; exact hc
  have hdigits (most : Nat) (hle : (padded 4 y.natAbs).length ≤ most) :
      (digits most).run (padded 4 y.natAbs ++ rest) = some (padded 4 y.natAbs, rest) :=
    run_digits (allDigits_padded _ _) (padded_ne_nil _ _) hle (hrest _)
  have hall := hdigits (padded 4 y.natAbs ++ rest).length (by simp)
  unfold yearText
  by_cases hneg : y < 0
  · rw [if_pos hneg, List.cons_append, year, run_bind_of (hblanks '-' (by decide) _)]
    simp only [StateT.run_bind, StateT.run_get, StateT.run_set, Option.pure_def,
      Option.bind_eq_bind, Option.bind_some, hall, digitsValue_padded]
    rw [StateT.run_pure, show -(y.natAbs : Int) = y by omega]
    rfl
  rw [if_neg hneg]
  by_cases hlarge : 9999 < y
  · rw [if_pos hlarge, List.cons_append, year, run_bind_of (hblanks '+' (by decide) _)]
    simp only [StateT.run_bind, StateT.run_get, StateT.run_set, Option.pure_def,
      Option.bind_eq_bind, Option.bind_some, hall, digitsValue_padded]
    rw [StateT.run_pure, show (y.natAbs : Int) = y by omega]
    rfl
  rw [if_neg hlarge]
  obtain ⟨c, cs, hcs⟩ := List.exists_cons_of_ne_nil (padded_ne_nil 4 y.natAbs)
  have hc : c.isDigit = true := allDigits_padded 4 y.natAbs c (hcs ▸ List.mem_cons_self)
  have hfour := hdigits 4 (length_padded (by decide) (by omega)).le
  rw [hcs, List.cons_append] at hfour
  rw [hcs, List.cons_append, year, run_bind_of (hblanks c (isBlank_digit hc) _)]
  simp only [StateT.run_bind, StateT.run_get, Option.pure_def, Option.bind_eq_bind,
    Option.bind_some]
  split
  · next h => cases h; exact absurd hc (by decide)
  · next h => cases h; exact absurd hc (by decide)
  · rw [StateT.run_bind, hfour, ← hcs]
    simp only [Option.bind_eq_bind, Option.bind_some, StateT.run_pure, digitsValue_padded]
    rw [show (y.natAbs : Int) = y by omega]
    rfl

theorem run_fraction (t : Instant) (cs : List Char) :
    fraction.run (t.fractionText ++ 'Z' :: cs) = some (t.nanoseconds % billion, 'Z' :: cs) := by
  have hpoint {places n : Nat} (hplaces : 0 < places) (hle : places ≤ 9) (h : n < 10 ^ places) :
      fraction.run ('.' :: padded places n ++ 'Z' :: cs) =
        some (n * 10 ^ (9 - places), 'Z' :: cs) := by
    have hlength := length_padded hplaces h
    have hdigits : (digits 9).run (padded places n ++ 'Z' :: cs) =
        some (padded places n, 'Z' :: cs) :=
      run_padded hplaces h hle (undigited_mark (by decide) _)
    simp only [fraction, List.cons_append, StateT.run_bind, StateT.run_get, StateT.run_set,
      StateT.run_modify, Option.pure_def, Option.bind_eq_bind, Option.bind_some, hdigits,
      digitsValue_padded, hlength, StateT.run_pure]
    rw [List.dropWhile_cons_of_neg (by decide)]
    rfl
  have hlt : t.nanoseconds % billion < 1000000000 := Nat.mod_lt _ (by decide)
  unfold fractionText
  dsimp only
  generalize t.nanoseconds % billion = n at hlt ⊢
  by_cases hzero : n = 0
  · rw [if_pos hzero, hzero]
    rfl
  rw [if_neg hzero]
  by_cases hmilli : n % 1000000 = 0
  · rw [if_pos hmilli, hpoint (by decide) (by decide) (by omega)]
    exact congrArg (fun m => some (m, 'Z' :: cs))
      (Nat.div_mul_cancel (Nat.dvd_of_mod_eq_zero hmilli))
  rw [if_neg hmilli]
  by_cases hmicro : n % 1000 = 0
  · rw [if_pos hmicro, hpoint (by decide) (by decide) (by omega)]
    exact congrArg (fun m => some (m, 'Z' :: cs))
      (Nat.div_mul_cancel (Nat.dvd_of_mod_eq_zero hmicro))
  · rw [if_neg hmicro, hpoint (by decide) (by decide) (by omega)]
    exact congrArg (fun m => some (m, 'Z' :: cs)) (Nat.mul_one n)

theorem run_offset (cs : List Char) : offset.run ('Z' :: cs) = some (0, cs) := by
  rw [offset, run_bind_of (run_blanks fun d hd => by cases hd; decide)]
  rfl

end Readers

/-! ## Instants -/

/-- The instants there are. Only the last second of a minute can be a leap second. -/
structure IsValid (t : Instant) : Prop where
  year : hasYear t.date = true
  nanoseconds : t.nanoseconds < billion ∨ t.nanoseconds < 2 * billion ∧ t.seconds % 60 = 59

variable {t : Instant}

theorem run_two {n : Nat} {cs : List Char} (h : n < 100) (hcs : ∀ k, Undigited (cs.take k)) :
    (number 2).run (padded 2 n ++ cs) = some (n, cs) :=
  run_number (by decide) h le_rfl (hcs _)

theorem secondOfDay_eq (t : Instant) : (t.secondOfDay : Int) = t.seconds % 86400 := by
  rw [secondOfDay]
  omega

theorem IsValid.leap (h : t.IsValid) : t.nanoseconds / billion = 0 ∨
    t.nanoseconds / billion = 1 ∧ t.secondOfDay % 60 = 59 := by
  have hsecond := t.secondOfDay_eq
  rcases h.nanoseconds with hn | ⟨hn, hlast⟩ <;> rw [billion] at hn ⊢ <;> omega

/-- Part by part the text is taken off. A leap second is the sixtieth of its minute, which the
reader counts as the one before with a billion nanoseconds more. -/
theorem run_reader (h : t.IsValid) :
    reader.run (t.dateText ++ 'T' :: t.timeText ++ t.fractionText ++ ['Z']) = some (t, []) := by
  have hbillion := Nat.div_add_mod' t.nanoseconds billion
  have hleap := h.leap
  have hsecond := t.secondOfDay_eq
  obtain ⟨hmonth, hday⟩ : t.date.month < 100 ∧ t.date.day < 100 := Date.ofDays_lt _
  unfold dateText timeText
  dsimp only
  generalize t.secondOfDay = s at hleap hsecond ⊢
  generalize t.nanoseconds / billion = k at hbillion hleap ⊢
  simp only [List.append_assoc, List.cons_append]
  rw [reader, run_bind_of (run_year _ (undigited_mark (by decide))),
    run_bind_of (run_mark (by decide)),
    run_bind_of (run_two hmonth (undigited_mark (by decide))), run_bind_of (run_mark (by decide)),
    run_bind_of (run_two hday (undigited_mark (by decide))),
    run_bind_of (run_discard (run_next (by decide))),
    run_bind_of (run_two (by omega) (undigited_mark (by decide))),
    run_bind_of (run_mark (by decide)),
    run_bind_of (run_two (by omega) (undigited_mark (by decide))),
    run_bind_of (run_mark (by decide)),
    run_bind_of (run_two (by omega) t.undigited_fractionText), run_bind_of (run_fraction t []),
    run_bind_of (run_offset []), run_bind_of (show blanks.run [] = some ((), []) from rfl)]
  -- the parts pass the checks and make up the instant
  have hchecks : (t.date.isValid && hasYear t.date && decide (s / 3600 < 24) &&
      decide (s / 60 % 60 < 60) && decide (s % 60 + k ≤ 60) &&
      decide ((0 : Int).natAbs < 86400)) = true := by
    have hvalid : t.date.isValid = true := Date.isValid_ofDays _
    simp only [hvalid, h.year, Bool.and_eq_true, decide_eq_true_eq, true_and]
    omega
  have hsame : (⟨t.date.toDays * 86400 +
      (s / 3600 * 3600 + s / 60 % 60 * 60 + (s % 60 + k - (s % 60 + k) / 60) : Nat) - 0,
      t.nanoseconds % billion + (s % 60 + k) / 60 * billion⟩ : Instant) = t := by
    have hdays : t.date.toDays = t.seconds / 86400 := Date.toDays_ofDays _
    have hcount : (s % 60 + k) / 60 = k := by omega
    rw [hcount, hdays]
    exact congrArg₂ Instant.mk (by omega) (by omega)
  dsimp only
  rw [if_pos hchecks, hsame, if_pos h.year]
  rfl

theorem ofText?_text (h : t.IsValid) : ofText? t.text = some t := by
  rw [ofText?, text, String.toList_ofList, run_reader h]
  rfl

/-! ## What is read -/

section Gives

variable {α β : Type} {p : Reader α} {f : α → Reader β} {P : α → Prop} {Q : β → Prop}

/-- Whatever the reader gives has the property. -/
def Gives (p : Reader α) (P : α → Prop) : Prop :=
  ∀ cs x rest, p.run cs = some (x, rest) → P x

theorem gives_any (p : Reader α) : Gives p fun _ => True := fun _ _ _ _ => trivial

theorem gives_failure : Gives failure P := by
  intro cs x rest h
  cases h

theorem gives_pure {x : α} (h : P x) : Gives (pure x) P := by
  intro cs y rest hy
  cases hy
  exact h

theorem Gives.bind (hp : Gives p P) (hf : ∀ x, P x → Gives (f x) Q) : Gives (p >>= f) Q := by
  intro cs y rest h
  rw [StateT.run_bind] at h
  obtain ⟨⟨x, cs'⟩, hx, hy⟩ := Option.bind_eq_some_iff.1 h
  exact hf x (hp cs x cs' hx) cs' y rest hy

theorem Gives.then (hf : ∀ x, Gives (f x) Q) : Gives (p >>= f) Q :=
  (gives_any p).bind fun x _ => hf x

theorem gives_failure_bind {f : α → Reader β} : Gives (failure >>= f) Q :=
  (gives_failure (P := fun _ => False)).bind fun _ h => h.elim

theorem gives_digits (most : Nat) :
    Gives (digits most) fun ds => AllDigits ds ∧ ds.length ≤ most := by
  refine .then fun cs => ?_
  dsimp only
  split
  · exact gives_failure_bind
  · refine .then fun _ => gives_pure ⟨allDigits_takeWhile _, ?_⟩
    exact (List.takeWhile_prefix _).length_le.trans (List.length_take_le _ _)

theorem gives_fraction : Gives fraction (· < billion) := by
  refine .then fun cs => ?_
  split
  · refine .then fun _ => (gives_digits 9).bind fun ds hds => .then fun _ => gives_pure ?_
    calc digitsValue ds * 10 ^ (9 - ds.length)
        < 10 ^ ds.length * 10 ^ (9 - ds.length) :=
          Nat.mul_lt_mul_of_pos_right (digitsValue_lt hds.1) (by positivity)
      _ = billion := by
          rw [← pow_add, Nat.add_sub_cancel' hds.2]
          rfl
  · exact gives_pure (by decide)

theorem gives_offsetSize : Gives offsetSize (· % 60 = 0) := by
  refine .then fun hours => .then fun _ => .then fun minutes => ?_
  dsimp only
  split
  · exact gives_failure_bind
  · exact gives_pure (by omega)

theorem gives_offset : Gives offset (· % 60 = 0) := by
  refine .then fun _ => .then fun cs => ?_
  split
  · exact .then fun _ => gives_pure rfl
  · exact .then fun _ => gives_pure rfl
  · exact .then fun _ => gives_offsetSize
  · exact .then fun _ => gives_offsetSize.bind fun size h => gives_pure (by omega)
  · exact .then fun _ => gives_offsetSize.bind fun size h => gives_pure (by omega)
  · split
    · exact .then fun _ => gives_pure rfl
    · exact gives_failure
  · exact gives_failure

theorem gives_reader : Gives reader IsValid := by
  unfold reader
  refine .then fun year => .then fun _ => .then fun month => .then fun _ => .then fun day =>
    .then fun _ => .then fun hour => .then fun _ => .then fun minute => .then fun _ =>
    .then fun second => gives_fraction.bind fun fraction hfraction =>
    gives_offset.bind fun offset hoffset => .then fun _ => ?_
  dsimp only
  split
  · next hchecks =>
    simp only [Bool.and_eq_true, decide_eq_true_eq] at hchecks
    split
    · next hyear =>
      refine gives_pure ⟨hyear, ?_⟩
      have hsecond : second ≤ 60 := hchecks.1.2
      rw [billion] at hfraction ⊢
      dsimp only
      rcases Nat.lt_or_eq_of_le hsecond with hlt | rfl
      · rw [Nat.div_eq_of_lt hlt]
        exact .inl (by omega)
      · exact .inr ⟨by omega, by omega⟩
    · exact gives_failure
  · exact gives_failure_bind

end Gives

theorem isValid_of_ofText? {text : String} (h : ofText? text = some t) : t.IsValid := by
  rw [ofText?] at h
  obtain ⟨⟨u, rest⟩, hread, h⟩ := Option.bind_eq_some_iff.1 h
  split at h
  · next heq =>
    cases heq
    cases h
    exact gives_reader _ _ _ hread
  · cases h

end Instant

end Quadrature
