import Mathlib
import Quadrature.Decimal.Numeral

/-!
# Decimal literals

`Numeral.IsLiteral` is the grammar of literals: digits with at most one point and
at least one digit, then an optional power of ten. `Numeral.scan` takes a literal
off a text exactly when one begins there (`scan_sound`, `scan_append`), and none
that begins there is longer.
-/

namespace Quadrature

def AllDigits (cs : List Char) : Prop := ∀ c ∈ cs, c.isDigit = true

theorem allDigits_takeWhile (cs : List Char) : AllDigits (cs.takeWhile Char.isDigit) := by
  have h : (cs.takeWhile Char.isDigit).all Char.isDigit = true := List.all_takeWhile
  exact fun c hc => List.all_eq_true.1 h c hc

/-- A text that no digit begins. -/
def Undigited (cs : List Char) : Prop := ∀ c, cs.head? = some c → c.isDigit = false

namespace Undigited

variable {cs ds : List Char}

theorem cons {c : Char} (h : c.isDigit = false) : Undigited (c :: cs) := by
  intro d hd
  cases hd
  exact h

theorem takeWhile (h : Undigited cs) : cs.takeWhile Char.isDigit = [] := by
  cases cs with
  | nil => rfl
  | cons c cs => simp [h c rfl]

theorem dropWhile (h : Undigited cs) : cs.dropWhile Char.isDigit = cs := by
  cases cs with
  | nil => rfl
  | cons c cs => simp [h c rfl]

theorem takeWhile_append (hd : AllDigits ds) (h : Undigited cs) :
    (ds ++ cs).takeWhile Char.isDigit = ds := by
  rw [List.takeWhile_append_of_pos hd, h.takeWhile, List.append_nil]

theorem dropWhile_append (hd : AllDigits ds) (h : Undigited cs) :
    (ds ++ cs).dropWhile Char.isDigit = cs := by
  rw [List.dropWhile_append_of_pos hd, h.dropWhile]

end Undigited

/-- Characters that can mark a power of ten. -/
def Marks (isMark : Char → Bool) : Prop :=
  ∀ c, isMark c = true → c.isDigit = false ∧ c ≠ '.'

namespace TenPower

structure IsWritten (isMark : Char → Bool) (p : TenPower) : Prop where
  mark : isMark p.mark = true
  sign : p.sign = none ∨ p.sign = some '+' ∨ p.sign = some '-'
  digits : AllDigits p.digits
  nonempty : p.digits ≠ []

variable {isMark : Char → Bool} {p : TenPower} {cs rest : List Char}

theorem takeSign_append (hs : p.sign = none ∨ p.sign = some '+' ∨ p.sign = some '-')
    (hd : AllDigits p.digits) (hn : p.digits ≠ []) (rest : List Char) :
    takeSign (p.sign.toList ++ p.digits ++ rest) = (p.sign, p.digits ++ rest) := by
  obtain ⟨m, s, ds⟩ := p
  rcases hs with rfl | rfl | rfl
  · cases ds with
    | nil => exact absurd rfl hn
    | cons d ds =>
      have h := hd d List.mem_cons_self
      simp only [Option.toList_none, List.nil_append, List.cons_append]
      unfold takeSign
      split
      · simp_all
      · simp_all
      · rfl
  · rfl
  · rfl

/-- Digits after a power of ten belong to it. -/
theorem scan_append (h : p.IsWritten isMark) (rest : List Char) :
    scan isMark (p.text ++ rest) =
      some (⟨p.mark, p.sign, p.digits ++ rest.takeWhile Char.isDigit⟩,
        rest.dropWhile Char.isDigit) := by
  have hs := takeSign_append h.sign h.digits h.nonempty rest
  simp only [text, List.cons_append, scan, hs, List.takeWhile_append_of_pos h.digits,
    List.dropWhile_append_of_pos h.digits, h.mark]
  simp [h.nonempty]

theorem takeSign_sound (cs : List Char) :
    cs = (takeSign cs).1.toList ++ (takeSign cs).2 ∧
      ((takeSign cs).1 = none ∨ (takeSign cs).1 = some '+' ∨ (takeSign cs).1 = some '-') := by
  unfold takeSign
  split <;> simp

theorem scan_sound (h : scan isMark cs = some (p, rest)) :
    cs = p.text ++ rest ∧ p.IsWritten isMark := by
  cases cs with
  | nil => cases h
  | cons m cs =>
    obtain ⟨hcs, hs⟩ := takeSign_sound cs
    simp only [scan] at h
    split at h
    · next hc =>
      simp only [Bool.and_eq_true, Bool.not_eq_true', List.isEmpty_eq_false_iff] at hc
      cases h
      refine ⟨?_, hc.1, hs, allDigits_takeWhile _, hc.2⟩
      simp only [text, List.cons_append, List.append_assoc, List.takeWhile_append_dropWhile]
      rw [← hcs]
    · cases h

end TenPower

namespace Numeral

structure IsLiteral (isMark : Char → Bool) (n : Numeral) : Prop where
  whole : AllDigits n.whole
  fraction : ∀ ds, n.fraction = some ds → AllDigits ds
  nonempty : n.whole ≠ [] ∨ n.fraction.getD [] ≠ []
  power : ∀ p, n.power = some p → p.IsWritten isMark

variable {isMark : Char → Bool} {n : Numeral} {cs rest : List Char}

theorem takeFraction_sound (cs : List Char) :
    cs = (takeFraction cs).1.elim [] ('.' :: ·) ++ (takeFraction cs).2 ∧
      ∀ ds, (takeFraction cs).1 = some ds → AllDigits ds := by
  unfold takeFraction
  split
  · simp [allDigits_takeWhile]
  · simp

theorem takeFraction_none (h : ∀ c, cs.head? = some c → c ≠ '.') :
    takeFraction cs = (none, cs) := by
  unfold takeFraction
  split
  · exact absurd rfl (h _ rfl)
  · rfl

theorem scan_sound (h : scan isMark cs = some (n, rest)) :
    cs = n.text ++ rest ∧ n.IsLiteral isMark := by
  have hcs : cs = cs.takeWhile Char.isDigit ++ cs.dropWhile Char.isDigit :=
    List.takeWhile_append_dropWhile.symm
  obtain ⟨hf, hd⟩ := takeFraction_sound (cs.dropWhile Char.isDigit)
  simp only [scan] at h
  split at h
  · cases h
  next hne =>
    have hne : cs.takeWhile Char.isDigit ≠ [] ∨
        (takeFraction (cs.dropWhile Char.isDigit)).1.getD [] ≠ [] := by
      simpa only [Bool.and_eq_true, List.isEmpty_iff, Classical.not_and_iff_not_or_not] using hne
    split at h
    · next p r hp =>
      cases h
      obtain ⟨hr, hp⟩ := TenPower.scan_sound hp
      refine ⟨?_, allDigits_takeWhile _, hd, hne, fun q hq => by cases hq; exact hp⟩
      rw [text, Option.elim_some, List.append_assoc, List.append_assoc, ← hr, ← hf, ← hcs]
    · cases h
      refine ⟨?_, allDigits_takeWhile _, hd, hne, fun q hq => by cases hq⟩
      rw [text, Option.elim_none, List.append_nil, List.append_assoc, ← hf, ← hcs]

/-! ## Literals at the head of a text -/

theorem scan_whole {w v r : List Char} {f : Option (List Char)} (hw : AllDigits w)
    (hv : Undigited v) (hf : takeFraction v = (f, r)) (hne : w ≠ [] ∨ f.getD [] ≠ []) :
    scan isMark (w ++ v) = some (match TenPower.scan isMark r with
      | some (p, r') => (⟨w, f, some p⟩, r')
      | none => (⟨w, f, none⟩, r)) := by
  simp only [scan, hv.takeWhile_append hw, hv.dropWhile_append hw, hf]
  rw [if_neg (by simpa [Classical.or_iff_not_imp_left] using hne)]
  cases TenPower.scan isMark r <;> rfl

theorem takeFraction_point {ds : List Char} (h : AllDigits ds) (rest : List Char) :
    takeFraction ('.' :: (ds ++ rest)) =
      (some (ds ++ rest.takeWhile Char.isDigit), rest.dropWhile Char.isDigit) := by
  rw [takeFraction, List.takeWhile_append_of_pos h, List.dropWhile_append_of_pos h]

theorem undigited_point (cs : List Char) : Undigited ('.' :: cs) := .cons (by decide)

theorem undigited_power (hm : Marks isMark) {p : TenPower} (hp : p.IsWritten isMark)
    (rest : List Char) : Undigited (p.text ++ rest) :=
  .cons (hm p.mark hp.mark).1

/-- After a power of ten only digits are still taken. -/
theorem scan_append_power (hm : Marks isMark) (h : n.IsLiteral isMark) {p : TenPower}
    (hn : n.power = some p) (rest : List Char) :
    scan isMark (n.text ++ rest) =
      some (⟨n.whole, n.fraction,
          some ⟨p.mark, p.sign, p.digits ++ rest.takeWhile Char.isDigit⟩⟩,
        rest.dropWhile Char.isDigit) := by
  obtain ⟨w, f, q⟩ := n
  obtain ⟨hw, hd, hne, hq⟩ := h
  cases hn
  have hp := hq p rfl
  have hu := undigited_power hm hp rest
  cases f with
  | none =>
    have htext : text ⟨w, none, some p⟩ ++ rest = w ++ (p.text ++ rest) := by simp [text]
    have hf : takeFraction (p.text ++ rest) = (none, p.text ++ rest) :=
      takeFraction_none fun c hc => by cases hc; exact (hm _ hp.mark).2
    rw [htext, scan_whole hw hu hf hne, TenPower.scan_append hp]
  | some ds =>
    have htext : text ⟨w, some ds, some p⟩ ++ rest = w ++ '.' :: (ds ++ (p.text ++ rest)) := by
      simp [text]
    have hf := takeFraction_point (hd ds rfl) (p.text ++ rest)
    rw [hu.takeWhile, hu.dropWhile, List.append_nil] at hf
    rw [htext, scan_whole hw (undigited_point _) hf hne, TenPower.scan_append hp]

/-- A text that continues no literal. -/
def Ends (isMark : Char → Bool) (rest : List Char) : Prop :=
  ∀ c, rest.head? = some c → c.isDigit = false ∧ c ≠ '.' ∧ isMark c = false

theorem Ends.undigited (h : Ends isMark rest) : Undigited rest := fun c hc => (h c hc).1

theorem Ends.scan (h : Ends isMark rest) : TenPower.scan isMark rest = none := by
  cases rest with
  | nil => rfl
  | cons c rest =>
    simp only [TenPower.scan, (h c rfl).2.2]
    rfl

theorem scan_text (hm : Marks isMark) (h : n.IsLiteral isMark) (hr : Ends isMark rest) :
    scan isMark (n.text ++ rest) = some (n, rest) := by
  have hu := hr.undigited
  cases hp : n.power with
  | some p =>
    rw [scan_append_power hm h hp, hu.takeWhile, hu.dropWhile, List.append_nil]
    obtain ⟨w, f, q⟩ := n
    cases hp
    rfl
  | none =>
    obtain ⟨w, f, q⟩ := n
    obtain ⟨hw, hd, hne, -⟩ := h
    cases hp
    cases f with
    | none =>
      have htext : text ⟨w, none, none⟩ ++ rest = w ++ rest := by simp [text]
      have hf : takeFraction rest = (none, rest) := takeFraction_none fun c hc => (hr c hc).2.1
      rw [htext, scan_whole hw hu hf hne, hr.scan]
    | some ds =>
      have htext : text ⟨w, some ds, none⟩ ++ rest = w ++ '.' :: (ds ++ rest) := by simp [text]
      have hf := takeFraction_point (hd ds rfl) rest
      rw [hu.takeWhile, hu.dropWhile, List.append_nil] at hf
      rw [htext, scan_whole hw (undigited_point _) hf hne, hr.scan]

/-- No literal at the head of a text is longer than the one taken. -/
theorem scan_append (hm : Marks isMark) (h : n.IsLiteral isMark) (rest : List Char) :
    ∃ n' rest', scan isMark (n.text ++ rest) = some (n', rest') ∧
      n.text.length ≤ n'.text.length := by
  cases hp : n.power with
  | some p =>
    refine ⟨_, _, scan_append_power hm h hp rest, ?_⟩
    simp [text, hp, TenPower.text]
  | none =>
    obtain ⟨w, f, q⟩ := n
    obtain ⟨hw, hd, hne, -⟩ := h
    cases hp
    cases f with
    | none =>
      -- the digits of the rest come in, and what follows them
      have hu : Undigited (rest.dropWhile Char.isDigit) := by
        intro c hc
        have := List.head?_dropWhile_not Char.isDigit rest
        rw [hc] at this
        simpa using this
      have hw' : AllDigits (w ++ rest.takeWhile Char.isDigit) := by
        intro c hc
        exact (List.mem_append.1 hc).elim (hw c) (allDigits_takeWhile rest c)
      have htext : text ⟨w, none, none⟩ ++ rest =
          (w ++ rest.takeWhile Char.isDigit) ++ rest.dropWhile Char.isDigit := by simp [text]
      have hne' : w ++ rest.takeWhile Char.isDigit ≠ [] := by
        simpa using fun hw0 => absurd hw0 (hne.resolve_right (by simp))
      rw [htext, scan_whole hw' hu rfl (.inl hne')]
      refine ⟨_, _, rfl, ?_⟩
      split <;> simp only [text, Option.elim_some, Option.elim_none, List.length_append,
        List.append_nil] <;> omega
    | some ds =>
      have htext : text ⟨w, some ds, none⟩ ++ rest = w ++ '.' :: (ds ++ rest) := by simp [text]
      have hf := takeFraction_point (hd ds rfl) rest
      have hne' : w ≠ [] ∨ (some (ds ++ rest.takeWhile Char.isDigit)).getD [] ≠ [] :=
        hne.imp id fun hds => by simpa using fun h0 => absurd h0 hds
      rw [htext, scan_whole hw (undigited_point _) hf hne']
      refine ⟨_, _, rfl, ?_⟩
      split <;> simp only [text, Option.elim_some, Option.elim_none, List.length_append,
        List.length_cons, List.append_nil] <;> omega

/-- A text spells one literal at most. -/
theorem text_injective (hm : Marks isMark) {n' : Numeral} (h : n.IsLiteral isMark)
    (h' : n'.IsLiteral isMark) (he : n.text = n'.text) : n = n' := by
  have hr : Ends isMark [] := fun c hc => by cases hc
  have h1 := scan_text hm h hr
  rw [he, scan_text hm h' hr] at h1
  cases h1
  rfl

theorem IsLiteral.head (h : n.IsLiteral isMark) :
    ∃ c cs, n.text = c :: cs ∧ (c.isDigit = true ∨ c = '.') := by
  obtain ⟨w, f, q⟩ := n
  obtain ⟨hw, -, hne, -⟩ := h
  cases w with
  | cons c w => exact ⟨c, _, rfl, .inl (hw c List.mem_cons_self)⟩
  | nil =>
    cases f with
    | none => simp at hne
    | some ds => exact ⟨'.', _, rfl, .inr rfl⟩

/-- A literal that begins with its point has a digit after it. -/
theorem IsLiteral.not_undigited (h : n.IsLiteral isMark) (hs : '.' :: cs = n.text ++ rest) :
    ¬ Undigited cs := by
  obtain ⟨w, f, q⟩ := n
  obtain ⟨hw, hf, hne, -⟩ := h
  intro hu
  cases w with
  | cons c w =>
    obtain rfl : '.' = c := (List.cons.inj hs).1
    exact absurd (hw '.' List.mem_cons_self) (by decide)
  | nil =>
    cases f with
    | none => simp at hne
    | some ds =>
      cases ds with
      | nil => simp at hne
      | cons d ds =>
        have hd := hf _ rfl d List.mem_cons_self
        obtain ⟨-, rfl⟩ := List.cons.inj hs
        rw [hu d rfl] at hd
        cases hd

theorem IsLiteral.mem_text (h : n.IsLiteral isMark) {c : Char} (hc : c ∈ n.text) :
    c.isDigit = true ∨ c = '.' ∨ isMark c = true ∨ c = '+' ∨ c = '-' := by
  obtain ⟨w, f, q⟩ := n
  obtain ⟨hw, hf, -, hq⟩ := h
  simp only [text, List.mem_append] at hc
  rcases hc with (hc | hc) | hc
  · exact .inl (hw c hc)
  · cases f with
    | none => cases hc
    | some ds =>
      rcases List.mem_cons.1 hc with rfl | hc
      · exact .inr (.inl rfl)
      · exact .inl (hf ds rfl c hc)
  · cases q with
    | none => cases hc
    | some p =>
      obtain ⟨hm, hs, hd, -⟩ := hq p rfl
      have hc : c = p.mark ∨ c ∈ p.sign.toList ∨ c ∈ p.digits := by
        simpa [TenPower.text] using hc
      rcases hc with rfl | hc | hc
      · exact .inr (.inr (.inl hm))
      · rcases hs with hs | hs | hs <;> rw [hs] at hc <;> simp at hc
        · exact .inr (.inr (.inr (.inl hc)))
        · exact .inr (.inr (.inr (.inr hc)))
      · exact .inl (hd c hc)

theorem IsLiteral.mono {isMark' : Char → Bool} (hm : ∀ c, isMark c = true → isMark' c = true)
    (h : n.IsLiteral isMark) : n.IsLiteral isMark' :=
  ⟨h.whole, h.fraction, h.nonempty, fun p hp =>
    let hw := h.power p hp
    ⟨hm _ hw.mark, hw.sign, hw.digits, hw.nonempty⟩⟩

theorem marks_e : Marks (· == 'e') := by
  intro c hc
  obtain rfl : c = 'e' := by simpa using hc
  decide

theorem marks_eE : Marks (fun c => c == 'e' || c == 'E') := by
  intro c hc
  rcases Bool.or_eq_true_iff.1 hc with h | h
  · obtain rfl : c = 'e' := by simpa using h
    decide
  · obtain rfl : c = 'E' := by simpa using h
    decide

end Numeral

theorem toLower_digit {c : Char} (h : c.isDigit = true) : c.toLower = c := by
  have h9 : c.val ≤ '9'.val := by simp [Char.isDigit] at h; exact h.2
  unfold Char.toLower
  rw [dif_neg]
  simp [UInt32.le_iff_toNat_le] at h9 ⊢
  omega

theorem not_alpha_digit {c : Char} (h : c.isDigit = true) : c.isAlpha = false := by
  have h9 : c.val ≤ '9'.val := by simp [Char.isDigit] at h; exact h.2
  simp [Char.isAlpha, Char.isUpper, Char.isLower, UInt32.le_iff_toNat_le] at h9 ⊢
  omega

/-- Whole texts that are literals are numbers to `readFloat`. -/
theorem readFloat_literal {n : Numeral} (h : n.IsLiteral (· == 'e')) :
    readFloat (String.ofList n.text) = some n.value.toFloat := by
  have hr : Numeral.Ends (fun c => c == 'e' || c == 'E') [] := fun c hc => by cases hc
  have hs := Numeral.scan_text Numeral.marks_eE (h.mono fun c hc => by simp_all) hr
  rw [List.append_nil] at hs
  obtain ⟨c, cs, ht, hc⟩ := h.head
  have hsign : takeSign n.text = (false, n.text) := by
    rw [ht]
    unfold takeSign
    split
    · next h0 => cases h0; simp at hc
    · next h0 => cases h0; simp at hc
    · rfl
  have hlower : c.toLower.isAlpha = false := by
    rcases hc with hc | rfl
    · rw [toLower_digit hc]
      exact not_alpha_digit hc
    · decide
  have hword (d : Char) (ds : List Char) (hd : d.isAlpha = true) :
      (n.text.map Char.toLower) ≠ d :: ds := by
    rw [ht, List.map_cons]
    rintro h0
    cases h0
    simp_all
  have hmag : readMagnitude n.text = some n.value.toFloat := by
    unfold readMagnitude
    split
    · next h0 =>
      exact absurd (congrArg String.toList h0) (by simpa using hword 'i' ['n', 'f'] rfl)
    · next h0 =>
      exact absurd (congrArg String.toList h0)
        (by simpa using hword 'i' ['n', 'f', 'i', 'n', 'i', 't', 'y'] rfl)
    · next h0 =>
      exact absurd (congrArg String.toList h0) (by simpa using hword 'n' ['a', 'n'] rfl)
    · simp [hs]
  rw [readFloat, String.toList_ofList, hsign]
  show (readMagnitude n.text).map (fun x => if false then -x else x) = _
  rw [hmag]
  rfl

end Quadrature
