import Quadrature.Proofs.Text
import Quadrature.Report.Identifier

/-!
# Identifiers read back

Groups joined by hyphens come apart again, and neither a brace nor a scheme can be mistaken
for the first digit of an identifier.
-/

namespace Quadrature.Identifier

theorem length_hyphenate {sizes : List Nat} {cs : List Char} (hne : sizes ≠ [])
    (h : cs.length = sizes.sum) :
    (hyphenate sizes cs).length + 1 = cs.length + sizes.length := by
  fun_induction hyphenate sizes cs with
  | case1 => exact absurd rfl hne
  | case2 size cs => simp_all
  | case3 size sizes cs hsizes ih =>
    simp only [List.sum_cons] at h
    have ih := ih hsizes (by simp only [List.length_drop]; omega)
    simp only [List.length_append, List.length_take, List.length_cons, List.length_drop] at ih ⊢
    omega

theorem unhyphenate?_hyphenate {sizes : List Nat} {cs : List Char} (hne : sizes ≠ [])
    (h : cs.length = sizes.sum) : unhyphenate? sizes (hyphenate sizes cs) = some cs := by
  fun_induction hyphenate sizes cs with
  | case1 => exact absurd rfl hne
  | case2 size cs =>
    have hsize : cs.length = size := by simpa using h
    rw [List.take_of_length_le (by omega), unhyphenate?, if_pos hsize]
  | case3 size sizes cs hsizes ih =>
    simp only [List.sum_cons] at h
    have htake : (cs.take size).length = size := by simp only [List.length_take]; omega
    have ih := ih hsizes (by simp only [List.length_drop]; omega)
    rw [unhyphenate?]
    · simp only [List.drop_left' htake, List.take_left' htake, ih, Option.map_some,
        List.take_append_drop]
    · exact hsizes

theorem groups_ne_nil : groups ≠ [] := by decide

theorem bare_hyphenate (n : Nat) :
    bare (hyphenate groups (Text.hexDigits 32 n)) = hyphenate groups (Text.hexDigits 32 n) := by
  obtain ⟨c, cs, hcs⟩ : ∃ c cs, Text.hexDigits 32 n = c :: cs := by
    cases h : Text.hexDigits 32 n with
    | nil => have := Text.length_hexDigits 32 n; rw [h] at this; cases this
    | cons c cs => exact ⟨c, cs, rfl⟩
  obtain ⟨d, hd, rfl⟩ := Text.mem_hexDigits (hcs ▸ List.mem_cons_self)
  have hbrace : ∀ d < 16, Nat.digitChar d ≠ '{' ∧ (Nat.digitChar d).toLower ≠ 'u' := by decide
  obtain ⟨hbrace, hscheme⟩ := hbrace d hd
  have hhead : ∃ rest, hyphenate groups (Text.hexDigits 32 n) = Nat.digitChar d :: rest :=
    ⟨_, by rw [hcs]; rfl⟩
  obtain ⟨rest, hrest⟩ := hhead
  rw [hrest, bare]
  · rw [if_neg]
    intro h
    exact hscheme (List.cons.inj h).1
  · rintro rest' h
    exact hbrace (List.cons.inj h).1

theorem ofText?_text (i : Identifier) : ofText? i.text = some i := by
  have hdigits := Text.length_hexDigits 32 i.bits.toNat
  have hlength : (hyphenate groups (Text.hexDigits 32 i.bits.toNat)).length = 36 := by
    have h := length_hyphenate groups_ne_nil (hdigits.trans (by decide))
    rw [hdigits] at h
    exact Nat.succ.inj h
  have hbits : i.bits.toNat < 16 ^ 32 := i.bits.isLt
  rw [ofText?, text, String.toList_ofList, hlength, if_neg (by decide), bare_hyphenate,
    unhyphenate?_hyphenate (by decide) (hdigits.trans (by decide))]
  simp only [Option.bind_eq_bind, Option.bind_some, Text.hexNumber?_hexDigits,
    Nat.mod_eq_of_lt hbits, BitVec.ofNat_toNat, BitVec.setWidth_eq]
  rfl

end Quadrature.Identifier
