import Quadrature.Json.Lexer
import Quadrature.Json.Printer
import Quadrature.Proofs.Text

/-!
# Strings read back

Whatever a character is written as, it is read as one unit that stands for the character
(`units_escape`), so a quoted string gives its characters and the text behind it.
-/

namespace Quadrature

open JsonToken Document

/-- A character is written as one unit and joined to itself. -/
theorem units_escape (c : Char) :
    ∃ u, (∀ cs, units (escape c ++ cs) = (units cs).map fun r => (u :: r.1, r.2)) ∧
      ∀ us, join (u :: us) = (join us).map (c :: ·) := by
  have short (e c : Char) (he : e ≠ 'u') (hc : unescape? e = some c) (cs : List Char) :
      units ('\\' :: e :: cs) = (units cs).map fun r => (.char c :: r.1, r.2) := by
    rw [units, hc]
    · cases units cs <;> rfl
    · rintro a b c d rest rfl
      exact absurd rfl he
  unfold escape
  split
  · exact ⟨.char '"', short _ _ (by decide) rfl, fun _ => rfl⟩
  · exact ⟨.char '\\', short _ _ (by decide) rfl, fun _ => rfl⟩
  · exact ⟨.char '\x08', short _ _ (by decide) rfl, fun _ => rfl⟩
  · exact ⟨.char '\x0c', short _ _ (by decide) rfl, fun _ => rfl⟩
  · exact ⟨.char '\n', short _ _ (by decide) rfl, fun _ => rfl⟩
  · exact ⟨.char '\r', short _ _ (by decide) rfl, fun _ => rfl⟩
  · exact ⟨.char '\t', short _ _ (by decide) rfl, fun _ => rfl⟩
  · next hquote hbackslash _ _ _ _ _ =>
    by_cases hc : c.toNat < 0x20
    · -- a control character without a letter of its own
      rw [if_pos hc]
      have hnumber : Text.hexNumber? (Text.hexDigits 4 c.toNat) = some c.toNat := by
        rw [Text.hexNumber?_hexDigits, Nat.mod_eq_of_lt (by omega)]
      obtain ⟨w, x, y, z, hdigits⟩ : ∃ w x y z, Text.hexDigits 4 c.toNat = [w, x, y, z] :=
        ⟨_, _, _, _, rfl⟩
      rw [hdigits] at hnumber ⊢
      refine ⟨.code c.toNat, fun cs => ?_, fun us => ?_⟩
      · simp only [List.cons_append, List.nil_append]
        rw [units, hnumber]
        cases units cs <;> rfl
      · rw [join.eq_def]
        dsimp only
        rw [if_pos (.inl (by omega)), Char.ofNat_toNat]
    · rw [if_neg hc]
      refine ⟨.char c, fun cs => ?_, fun _ => rfl⟩
      simp only [List.cons_append, List.nil_append]
      rw [units]
      · cases units cs with
        | none => rfl
        | some r => simp only [if_neg hc, Option.map_some]
      · rintro rfl; exact hquote rfl
      · rintro a b c' d rest rfl _; exact hbackslash rfl
      · rintro e rest rfl _; exact hbackslash rfl

theorem units_flatMap_escape (cs rest : List Char) :
    ∃ us, units (cs.flatMap escape ++ '"' :: rest) = some (us, rest) ∧ join us = some cs := by
  induction cs with
  | nil => exact ⟨[], by rw [List.flatMap_nil, List.nil_append, units], rfl⟩
  | cons c cs ih =>
    obtain ⟨us, hunits, hjoin⟩ := ih
    obtain ⟨u, hu, hc⟩ := units_escape c
    refine ⟨u :: us, ?_, ?_⟩
    · rw [List.flatMap_cons, List.append_assoc, hu, hunits]
      rfl
    · rw [hc, hjoin]
      rfl

/-- A quoted string is the token of the string. -/
theorem first?_quoted (s : String) (rest : List Char) :
    ∃ cs, quoted (some s) = '"' :: cs ∧
      first? '"' (cs ++ rest) = some (.string (some s), rest) := by
  obtain ⟨us, hunits, hjoin⟩ := units_flatMap_escape s.toList rest
  refine ⟨s.toList.flatMap escape ++ ['"'], rfl, ?_⟩
  rw [List.append_assoc, List.singleton_append, first?, hunits]
  simp only [Option.map_some, hjoin, String.ofList_toList]

end Quadrature
