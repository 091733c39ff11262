import Mathlib
import Quadrature.Text

/-!
# Characters and texts

What folding leaves as it is (`foldChars_eq_self`), which characters lower case does not tell
from each other (`lowerCase_congr`), and hexadecimal digits read back (`hexNumber?_hexDigits`).
-/

namespace Quadrature.Text

/-! ## Folding

Visible ASCII characters other than capitals are left as they are by folding, so a text
made of them is its own folded text.
-/

/-- A visible ASCII character that is no capital. -/
structure IsSmall (c : Char) : Prop where
  visible : 0x21 ≤ c.toNat
  ascii : c.toNat ≤ 0x7E
  uncapitalized : c.toNat < 0x41 ∨ 0x5A < c.toNat

variable {c d : Char}

instance : Decidable (IsSmall c) :=
  decidable_of_iff (0x21 ≤ c.toNat ∧ c.toNat ≤ 0x7E ∧ (c.toNat < 0x41 ∨ 0x5A < c.toNat))
    ⟨fun ⟨hv, ha, hu⟩ => ⟨hv, ha, hu⟩, fun ⟨hv, ha, hu⟩ => ⟨hv, ha, hu⟩⟩

theorem isSmall_of_all {cs : List Char} (h : cs.all (fun c => decide (IsSmall c)) = true) :
    ∀ c ∈ cs, IsSmall c :=
  fun c hc => of_decide_eq_true (List.all_eq_true.1 h c hc)

theorem IsSmall.of_digit (h : c.isDigit = true) : IsSmall c := by
  have hcode : 0x30 ≤ c.toNat ∧ c.toNat ≤ 0x39 := by
    simpa [Char.isDigit, UInt32.le_iff_toNat_le] using h
  exact ⟨by omega, by omega, by omega⟩

theorem IsSmall.of_lower (h : c.isLower = true) : IsSmall c := by
  have hcode : 0x61 ≤ c.toNat ∧ c.toNat ≤ 0x7A := by
    simpa [Char.isLower, UInt32.le_iff_toNat_le] using h
  exact ⟨by omega, by omega, by omega⟩

theorem IsSmall.not_blank (h : IsSmall c) : isBlank c = false := by
  obtain ⟨hv, ha, -⟩ := h
  simp [isBlank, blankRanges]
  omega

/-- The capitals `A` to `Z` are the only run that begins among the ASCII characters. -/
theorem lowerCaseRuns_ascii :
    ∀ r ∈ lowerCaseRuns, 0x7E < r.first ∨ 0x41 ≤ r.first ∧ r.last ≤ 0x5A := by
  decide +kernel

theorem IsSmall.lowerCase (h : IsSmall c) : lowerCase c = [c] := by
  obtain ⟨hv, ha, hc⟩ := h
  have hfind : lowerCaseRuns.find? (·.contains c.toNat) = none := by
    rw [List.find?_eq_none]
    intro r hr
    have hrun := lowerCaseRuns_ascii r hr
    simp only [CaseRun.contains, Bool.and_eq_true, decide_eq_true_eq]
    omega
  have hne : c ≠ 'İ' := by
    rintro rfl
    exact absurd ha (by decide)
  rw [Text.lowerCase, if_neg hne, hfind]

theorem flatMap_lowerCase {cs : List Char} (h : ∀ c ∈ cs, IsSmall c) :
    cs.flatMap lowerCase = cs := by
  induction cs with
  | nil => rfl
  | cons c cs ih =>
    have hcs : ∀ d ∈ cs, IsSmall d := fun d hd => h d (List.mem_cons_of_mem c hd)
    rw [List.flatMap_cons, (h c List.mem_cons_self).lowerCase, ih hcs]
    rfl

theorem foldChars_eq_self {cs : List Char} (h : ∀ c ∈ cs, IsSmall c) : foldChars cs = cs := by
  have hfilter : ∀ c ∈ cs, (!isBlank c) = true := by
    intro c hc
    rw [(h c hc).not_blank]
    rfl
  rw [foldChars, List.filter_eq_self.2 hfilter, flatMap_lowerCase h]

/-! ## Case

The capitals of ASCII are mapped to their small letters, as they are where only ASCII counts, so
lower case does not tell the two from each other. Digits stay as they are, and nothing else
becomes a digit.
-/

/-! ### Letters -/

/-- A function that gives the same for each ASCII capital and its small letter does not see
the case of ASCII letters. -/
theorem apply_toLower {β : Type} {g : Char → β}
    (hg : ∀ n < 26, g (Char.ofNat (0x41 + n)).toLower = g (Char.ofNat (0x41 + n))) (c : Char) :
    g c.toLower = g c := by
  by_cases h : c.val ≥ 'A'.val ∧ c.val ≤ 'Z'.val
  · have hfirst : 0x41 ≤ c.toNat := UInt32.le_iff_toNat_le.1 h.1
    have hlast : c.toNat ≤ 0x5A := UInt32.le_iff_toNat_le.1 h.2
    have hc := hg (c.toNat - 0x41) (by omega)
    rwa [Nat.add_sub_cancel' hfirst, Char.ofNat_toNat] at hc
  · rw [Char.toLower, dif_neg h]

theorem lowerCase_toLower (c : Char) : lowerCase c.toLower = lowerCase c := by
  have hcapital : ∀ n < 26, IsSmall (Char.ofNat (0x41 + n)).toLower ∧
      lowerCase (Char.ofNat (0x41 + n)) = [(Char.ofNat (0x41 + n)).toLower] := by
    decide +kernel
  refine apply_toLower (fun n hn => ?_) c
  obtain ⟨hsmall, hlower⟩ := hcapital n hn
  rw [hsmall.lowerCase, hlower]

theorem lowerCase_congr (h : c.toLower = d.toLower) : lowerCase c = lowerCase d := by
  rw [← lowerCase_toLower c, h, lowerCase_toLower d]

/-! ### Digits -/

/-- All runs lead past the digits. -/
theorem lowerCaseRuns_past_digits : ∀ r ∈ lowerCaseRuns, 0x39 < r.first + r.offset := by
  decide +kernel

theorem isDigit_ofNat {n : Nat} (h : 0x39 < n) : (Char.ofNat n).isDigit = false := by
  rw [← Bool.not_eq_true]
  intro hdigit
  have hsmall : 0x30 ≤ (Char.ofNat n).toNat ∧ (Char.ofNat n).toNat ≤ 0x39 := by
    simpa [Char.isDigit, UInt32.le_iff_toNat_le] using hdigit
  rw [Char.toNat_ofNat] at hsmall
  split at hsmall <;> omega

theorem isDigit_of_mem_lowerCase (hc : c.isDigit = false) (hd : d ∈ lowerCase c) :
    d.isDigit = false := by
  rw [lowerCase] at hd
  split at hd
  · rcases List.mem_pair.1 hd with rfl | rfl
    · exact isDigit_ofNat (by decide)
    · exact isDigit_ofNat (by decide)
  · split at hd
    · next r hr =>
      obtain rfl := List.mem_singleton.1 hd
      have hoffset := lowerCaseRuns_past_digits r (List.mem_of_find?_eq_some hr)
      have hcontains := List.find?_some hr
      simp only [CaseRun.contains, Bool.and_eq_true, decide_eq_true_eq] at hcontains
      exact isDigit_ofNat (by omega)
    · obtain rfl := List.mem_singleton.1 hd
      exact hc

/-! ## Hexadecimal digits

The last digits of a number are read as its remainder by their power of sixteen.
-/

theorem length_hexDigits (count n : Nat) : (hexDigits count n).length = count := by
  induction count generalizing n with
  | zero => rfl
  | succ count ih => rw [hexDigits, List.length_append, ih, List.length_singleton]

theorem hexValue?_hexDigit (n : Nat) : hexValue? (hexDigit n) = some (n % 16) := by
  have hvalue : ∀ d < 16, hexValue? (Nat.digitChar d) = some d := by decide
  exact hvalue _ (Nat.mod_lt _ (by decide))

theorem mem_hexDigits {count n : Nat} {c : Char} (h : c ∈ hexDigits count n) :
    ∃ d < 16, c = Nat.digitChar d := by
  induction count generalizing n with
  | zero => cases h
  | succ count ih =>
    rcases List.mem_append.1 h with h | h
    · exact ih h
    · exact ⟨n % 16, Nat.mod_lt _ (by decide), List.mem_singleton.1 h⟩

theorem hexNumber?_append (cs : List Char) (c : Char) :
    hexNumber? (cs ++ [c]) =
      (hexNumber? cs).bind fun n => (hexValue? c).map (16 * n + ·) := by
  rw [hexNumber?, List.foldlM_append]
  cases h : hexNumber? cs with
  | none => rw [hexNumber?] at h; rw [h]; rfl
  | some n =>
    rw [hexNumber?] at h
    rw [h]
    cases hc : hexValue? c <;> simp [hc]

theorem hexNumber?_hexDigits (count n : Nat) :
    hexNumber? (hexDigits count n) = some (n % 16 ^ count) := by
  induction count generalizing n with
  | zero => rw [Nat.pow_zero, Nat.mod_one]; rfl
  | succ count ih =>
    rw [hexDigits, hexNumber?_append, ih, Option.bind_some, hexValue?_hexDigit, Option.map_some,
      Nat.pow_succ', Nat.mod_mul, Nat.add_comm]

end Quadrature.Text
