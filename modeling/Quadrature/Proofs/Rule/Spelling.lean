import Quadrature.Proofs.Text
import Quadrature.Rule.Basic

/-!
# Spellings of a rule

A spelling is read by its key, in which white space, marks and the case of letters are gone
(`key_eq_of_same`). Renaming digits in a spelling renames them in its key (`key_map`), so the
two rules of Simpson can be compared spelling by spelling.
-/

namespace Quadrature.Rule

/-! ## Keys -/

/-- White space and the marks that a spelling may have anywhere. -/
def isIgnored (c : Char) : Bool :=
  Text.isBlank c || ['-', '_', '/', '\''].contains c

/-- Texts that become one text when ignored characters are put in or taken out and ASCII
letters change their case. -/
inductive SameSpelling : List Char → List Char → Prop
  | nil : SameSpelling [] []
  | skipLeft {c : Char} {cs ds : List Char} (hc : isIgnored c = true) (h : SameSpelling cs ds) :
      SameSpelling (c :: cs) ds
  | skipRight {d : Char} {cs ds : List Char} (hd : isIgnored d = true) (h : SameSpelling cs ds) :
      SameSpelling cs (d :: ds)
  | letter {c d : Char} {cs ds : List Char} (hcd : c.toLower = d.toLower)
      (h : SameSpelling cs ds) : SameSpelling (c :: cs) (d :: ds)

/-- The characters of a key. -/
def keyChars (cs : List Char) : List Char :=
  (cs.filter (!isIgnored ·)).flatMap Text.lowerCase

variable {c d : Char} {cs ds : List Char} {t u : String}

theorem toList_key (t : String) : (key t).toList = keyChars t.toList := by
  rw [key, Text.fold, String.toList_ofList, String.toList_ofList, Text.foldChars,
    List.filter_filter, keyChars]
  congr 2
  funext c
  rw [isIgnored, Bool.not_or]

theorem isIgnored_congr (h : c.toLower = d.toLower) : isIgnored c = isIgnored d := by
  have hlower : ∀ c, isIgnored c.toLower = isIgnored c :=
    Text.apply_toLower (by decide +kernel)
  rw [← hlower c, h, hlower d]

theorem keyChars_cons (c : Char) (cs : List Char) : keyChars (c :: cs) =
    if isIgnored c then keyChars cs else Text.lowerCase c ++ keyChars cs := by
  rw [keyChars, List.filter_cons]
  cases isIgnored c <;> rfl

theorem keyChars_eq_of_same (h : SameSpelling cs ds) : keyChars cs = keyChars ds := by
  induction h with
  | nil => rfl
  | skipLeft hc _ ih => rw [keyChars_cons, if_pos hc, ih]
  | skipRight hd _ ih => rw [keyChars_cons, if_pos hd, ih]
  | letter hcd _ ih =>
    rw [keyChars_cons, keyChars_cons, isIgnored_congr hcd, Text.lowerCase_congr hcd, ih]

theorem key_eq_of_same (h : SameSpelling t.toList u.toList) : key t = key u := by
  rw [← String.toList_inj, toList_key, toList_key, keyChars_eq_of_same h]

/-! ## Digits -/

/-- A map of characters that puts digits in the places of digits and changes nothing else. -/
def RenamesDigits (g : Char → Char) : Prop :=
  ∀ c, g c = c ∨ c.isDigit = true ∧ (g c).isDigit = true

theorem isIgnored_of_isDigit (h : c.isDigit = true) : isIgnored c = false := by
  have hall : ∀ n < 0x7F, (Char.ofNat n).isDigit = true → isIgnored (Char.ofNat n) = false := by
    decide +kernel
  have hc := hall c.toNat (Nat.lt_succ_of_le (Text.IsSmall.of_digit h).ascii)
  rw [Char.ofNat_toNat] at hc
  exact hc h

theorem mem_keyChars_of_isDigit (h : c.isDigit = true) (hc : c ∈ cs) : c ∈ keyChars cs := by
  refine List.mem_flatMap.2 ⟨c, List.mem_filter.2 ⟨hc, ?_⟩, ?_⟩
  · rw [isIgnored_of_isDigit h]
    rfl
  · rw [(Text.IsSmall.of_digit h).lowerCase]
    exact List.mem_singleton_self c

/-- A text with a digit has no key without one. -/
theorem key_ne_of_isDigit {word : String} (h : c.isDigit = true) (hc : c ∈ t.toList)
    (hword : word.toList.all (!·.isDigit) = true) : key t ≠ word := by
  rintro rfl
  rw [toList_key] at hword
  have hnot := List.all_eq_true.1 hword c (mem_keyChars_of_isDigit h hc)
  rw [h] at hnot
  cases hnot

namespace RenamesDigits

variable {g : Char → Char}

theorem eq_self (hg : RenamesDigits g) (h : c.isDigit = false) : g c = c :=
  (hg c).resolve_right fun ⟨hc, _⟩ => by rw [h] at hc; cases hc

theorem isIgnored_apply (hg : RenamesDigits g) (c : Char) : isIgnored (g c) = isIgnored c := by
  rcases hg c with hc | ⟨hc, hgc⟩
  · rw [hc]
  · rw [isIgnored_of_isDigit hc, isIgnored_of_isDigit hgc]

theorem lowerCase_apply (hg : RenamesDigits g) (c : Char) :
    Text.lowerCase (g c) = (Text.lowerCase c).map g := by
  cases h : c.isDigit with
  | true =>
    have hgc : (g c).isDigit = true := by
      rcases hg c with hc | ⟨-, hgc⟩
      · rw [hc, h]
      · exact hgc
    rw [(Text.IsSmall.of_digit h).lowerCase, (Text.IsSmall.of_digit hgc).lowerCase,
      List.map_singleton]
  | false =>
    have hlower : ∀ d ∈ Text.lowerCase c, g d = d := fun d hd =>
      hg.eq_self (Text.isDigit_of_mem_lowerCase h hd)
    rw [hg.eq_self h, List.map_congr_left hlower, List.map_id']

theorem keyChars_map (hg : RenamesDigits g) (cs : List Char) :
    keyChars (cs.map g) = (keyChars cs).map g := by
  induction cs with
  | nil => rfl
  | cons c cs ih =>
    rw [List.map_cons, keyChars_cons, keyChars_cons, hg.isIgnored_apply, hg.lowerCase_apply, ih]
    split
    · rfl
    · rw [List.map_append]

theorem key_map (hg : RenamesDigits g) (t : String) : key (t.map g) = (key t).map g := by
  rw [← String.toList_inj, toList_key, String.toList_map, hg.keyChars_map, String.toList_map,
    toList_key]

end RenamesDigits

/-! ## The rules of Simpson -/

/-- One third where three eighths are written. -/
def thirds (c : Char) : Char :=
  if c = '3' then '1' else if c = '8' then '3' else c

/-- Three eighths where one third is written. -/
def eighths (c : Char) : Char :=
  if c = '1' then '3' else if c = '3' then '8' else c

theorem renamesDigits_of_two {x x' y y' : Char} (hx : x.isDigit = true) (hx' : x'.isDigit = true)
    (hy : y.isDigit = true) (hy' : y'.isDigit = true) :
    RenamesDigits fun c => if c = x then x' else if c = y then y' else c := by
  intro c
  dsimp only
  split
  · next h => exact .inr ⟨h ▸ hx, hx'⟩
  · split
    · next h => exact .inr ⟨h ▸ hy, hy'⟩
    · exact .inl rfl

theorem renamesDigits_thirds : RenamesDigits thirds :=
  renamesDigits_of_two (by decide) (by decide) (by decide) (by decide)

theorem renamesDigits_eighths : RenamesDigits eighths :=
  renamesDigits_of_two (by decide) (by decide) (by decide) (by decide)

theorem ofSpelling?_eq_simpsonOneThird : ofSpelling? t = some (fixed .simpsonOneThird) ↔
    key t = "simpson13" ∨ key t = "simpson" ∨ key t = "simpsons" := by
  unfold ofSpelling?
  split <;> simp_all

theorem ofSpelling?_eq_simpsonThreeEighths : ofSpelling? t = some (fixed .simpsonThreeEighths) ↔
    key t = "simpson38" ∨ key t = "simpsons38" := by
  unfold ofSpelling?
  split <;> simp_all

/-- Which rule a spelling names, if any, depends neither on white space and marks nor on the
case of ASCII letters. Where three eighths are read, one third is read as well once the digits
are renamed, except from the key `simpsons38`, whose counterpart is missing. Where one third is
read from a text with a digit, three eighths are read once the digits are renamed. -/
theorem ofSpelling?_same_renamed (t : String) :
    (∀ u : String, SameSpelling t.toList u.toList → ofSpelling? u = ofSpelling? t) ∧
      (ofSpelling? t = some (fixed .simpsonThreeEighths) →
        (ofSpelling? (t.map thirds) = some (fixed .simpsonOneThird) ↔ key t ≠ "simpsons38")) ∧
      ((∃ c ∈ t.toList, c.isDigit = true) → ofSpelling? t = some (fixed .simpsonOneThird) →
        ofSpelling? (t.map eighths) = some (fixed .simpsonThreeEighths)) := by
  refine ⟨fun u h => ?_, fun h => ?_, fun ⟨c, hc, hdigit⟩ h => ?_⟩
  · rw [ofSpelling?, ← key_eq_of_same h, ofSpelling?]
  · have hrenamed := renamesDigits_thirds.key_map t
    rcases ofSpelling?_eq_simpsonThreeEighths.1 h with hkey | hkey
    · rw [hkey] at hrenamed ⊢
      have hthird : key (t.map thirds) = "simpson13" := hrenamed.trans (by decide +kernel)
      exact iff_of_true (ofSpelling?_eq_simpsonOneThird.2 (.inl hthird)) (by decide)
    · rw [hkey] at hrenamed ⊢
      have hunread : ¬ ("simpsons38".map thirds = "simpson13" ∨
          "simpsons38".map thirds = "simpson" ∨ "simpsons38".map thirds = "simpsons") := by
        decide +kernel
      refine iff_of_false (fun hread => hunread ?_) (fun hne => hne rfl)
      rwa [ofSpelling?_eq_simpsonOneThird, hrenamed] at hread
  · have hrenamed := renamesDigits_eighths.key_map t
    rcases ofSpelling?_eq_simpsonOneThird.1 h with hkey | hkey | hkey
    · rw [hkey] at hrenamed
      exact ofSpelling?_eq_simpsonThreeEighths.2 (.inl (hrenamed.trans (by decide +kernel)))
    · exact absurd hkey (key_ne_of_isDigit hdigit hc (by decide))
    · exact absurd hkey (key_ne_of_isDigit hdigit hc (by decide))

/-- White space and marks in different places, and the digits of the two rules of Simpson. -/
theorem ofSpelling?_same_renamed_simpson :
    ofSpelling? "M-C" = ofSpelling? " mc" ∧
      ofSpelling? ("Simpson 3/8".map thirds) = some (fixed .simpsonOneThird) ∧
      ofSpelling? ("Simpson 1/3".map eighths) = some (fixed .simpsonThreeEighths) := by
  refine ⟨(ofSpelling?_same_renamed " mc").1 "M-C" ?_,
    ((ofSpelling?_same_renamed "Simpson 3/8").2.1 ?_).2 ?_,
    (ofSpelling?_same_renamed "Simpson 1/3").2.2 ⟨'3', ?_, ?_⟩ ?_⟩
  · exact .skipLeft (by decide) (.letter (by decide) (.skipRight (by decide)
      (.letter (by decide) .nil)))
  all_goals decide +kernel

/-- The common name of one rule of Simpson is read, that of the other is not. -/
theorem ofSpelling?_simpsons :
    ofSpelling? "Simpson's 3/8" = some (fixed .simpsonThreeEighths) ∧
      "Simpson's 3/8".map thirds = "Simpson's 1/3" ∧ ofSpelling? "Simpson's 1/3" = none := by
  decide +kernel

end Quadrature.Rule
