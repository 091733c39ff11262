import Quadrature.Expression.Lexer
import Quadrature.Proofs.Decimal.Numeral

/-!
# Lexemes

`Lexeme l rest t` says that `l` spells the token `t` before the text `rest`. A text
is cut into lexemes from left to right, each the longest that begins where the last one
ends (`Cut`), up to the first place where this fails (`Refused`). `tokens` does just
that.
-/

namespace Quadrature

/-- Only `log10` looks at what follows: its digits belong to the name when it is called. -/
inductive Lexeme : List Char → List Char → Token → Prop where
  | number {n : Numeral} (rest : List Char) : n.IsLiteral (· == 'e') →
      Lexeme n.text rest (.number n.value.toFloat)
  | name {l : List Char} (rest : List Char) : l ≠ [] → (∀ c ∈ l, c.isLower = true) →
      Lexeme l rest (.name (String.ofList l))
  | log10 (rest : List Char) : Lexeme ['l', 'o', 'g', '1', '0'] ('(' :: rest) (.name "log10")
  | plus (rest : List Char) : Lexeme ['+'] rest .plus
  | minus (rest : List Char) : Lexeme ['-'] rest .minus
  | star (rest : List Char) : Lexeme ['*'] rest .star
  | slash (rest : List Char) : Lexeme ['/'] rest .slash
  | caret (rest : List Char) : Lexeme ['^'] rest .caret
  | stars (rest : List Char) : Lexeme ['*', '*'] rest .caret
  | openParen (rest : List Char) : Lexeme ['('] rest .openParen
  | closeParen (rest : List Char) : Lexeme [')'] rest .closeParen

/-- `l` is the longest lexeme at the head of `cs`. -/
structure Longest (cs l rest : List Char) (t : Token) : Prop where
  split : cs = l ++ rest
  lexeme : Lexeme l rest t
  longest : ∀ l' rest' t', cs = l' ++ rest' → Lexeme l' rest' t' → l'.length ≤ l.length

def Token.IsFinite : Token → Prop
  | number v => v.isFinite = true
  | _ => True

/-- The characters with which lexemes begin. -/
def BeginsLexeme (c : Char) : Prop :=
  c.isDigit = true ∨ c = '.' ∨ c.isLower = true ∨ c ∈ ['+', '-', '*', '/', '^', '(', ')']

inductive Fails : List Char → Fault → Prop where
  | unexpected {c : Char} (cs : List Char) : ¬ BeginsLexeme c →
      Fails (c :: cs) (.unexpectedCharacter c)
  | point {cs : List Char} : Undigited cs → Fails ('.' :: cs) .malformedNumber
  | outOfRange {cs l rest : List Char} {v : Float} : Longest cs l rest (.number v) →
      v.isFinite = false → Fails cs (.numberOutOfRange (String.ofList l))

/-- The text whose first character stands at `p` is cut into the lexemes `ls`, which spell
the tokens `ts`. -/
inductive Cut : Nat → List Char → List (List Char) → List PlacedToken → Prop where
  | nil (p : Nat) : Cut p [] [] []
  | cons {p : Nat} {cs l rest : List Char} {t : Token} {ls : List (List Char)}
      {ts : List PlacedToken} : Longest cs l rest t → t.IsFinite →
      Cut (p + l.length) rest ls ts → Cut p cs (l :: ls) (⟨t, p⟩ :: ts)

inductive Refused : Nat → List Char → SyntaxError → Prop where
  | here {p : Nat} {cs : List Char} {f : Fault} : Fails cs f → Refused p cs ⟨f, p⟩
  | later {p : Nat} {cs l rest : List Char} {t : Token} {e : SyntaxError} :
      Longest cs l rest t → t.IsFinite → Refused (p + l.length) rest e → Refused p cs e

/-! ## Lexemes by their first character -/

namespace Lexeme

variable {l rest : List Char} {t t' : Token}

theorem begins (h : Lexeme l rest t) : ∃ c cs, l = c :: cs ∧ BeginsLexeme c := by
  cases h with
  | @number n _ hn =>
    obtain ⟨c, cs, ht, hc⟩ := hn.head
    refine ⟨c, cs, ht, ?_⟩
    rcases hc with hc | hc
    · exact .inl hc
    · exact .inr (.inl hc)
  | name _ hne hl =>
    obtain ⟨c, cs, rfl⟩ := List.exists_cons_of_ne_nil hne
    exact ⟨c, cs, rfl, .inr (.inr (.inl (hl c List.mem_cons_self)))⟩
  | log10 => exact ⟨_, _, rfl, .inr (.inr (.inl rfl))⟩
  | plus | minus | star | slash | caret | stars | openParen | closeParen =>
    exact ⟨_, _, rfl, .inr (.inr (.inr (by decide)))⟩

/-- A lexeme at the head of a text begins with its first character. -/
theorem first {c : Char} {cs : List Char} (h : Lexeme l rest t) (hs : c :: cs = l ++ rest) :
    ∃ ds, l = c :: ds ∧ cs = ds ++ rest := by
  obtain ⟨d, ds, rfl, -⟩ := h.begins
  obtain ⟨rfl, rfl⟩ := List.cons.inj hs
  exact ⟨ds, rfl, rfl⟩

theorem length_pos (h : Lexeme l rest t) : 0 < l.length := by
  obtain ⟨c, cs, rfl, -⟩ := h.begins
  exact Nat.succ_pos _

end Lexeme

theorem not_lower_of_digit {c : Char} (h : c.isDigit = true) : c.isLower = false := by
  have h0 := not_alpha_digit h
  simp only [Char.isAlpha, Bool.or_eq_false_iff] at h0
  exact h0.2

/-- A lexeme that begins with a digit or a point is a literal. -/
theorem Lexeme.literal {c : Char} {l rest cs : List Char} {t : Token} (h : Lexeme l rest t)
    (hl : l = c :: cs) (hc : c.isDigit = true ∨ c = '.') :
    ∃ n : Numeral, n.IsLiteral (· == 'e') ∧ l = n.text ∧ t = .number n.value.toFloat := by
  cases h with
  | @number n _ hn => exact ⟨n, hn, rfl, rfl⟩
  | name _ _ hlow =>
    subst hl
    have hlow := hlow c List.mem_cons_self
    rcases hc with hc | rfl
    · rw [not_lower_of_digit hc] at hlow
      cases hlow
    · cases hlow
  | _ =>
    cases hl
    simp at hc

/-- A lexeme that begins with a letter is a name. -/
theorem Lexeme.letters {c : Char} {l rest cs : List Char} {t : Token} (h : Lexeme l rest t)
    (hl : l = c :: cs) (hc : c.isLower = true) :
    (∀ d ∈ l, d.isLower = true) ∧ t = .name (String.ofList l) ∨
      l = ['l', 'o', 'g', '1', '0'] ∧ (∃ rest', rest = '(' :: rest') ∧ t = .name "log10" := by
  cases h with
  | @number n _ hn =>
    obtain ⟨d, ds, ht, hd⟩ := hn.head
    rw [ht] at hl
    cases hl
    rcases hd with hd | rfl
    · rw [not_lower_of_digit hd] at hc
      cases hc
    · cases hc
  | name _ _ hlow => exact .inl ⟨hlow, rfl⟩
  | log10 rest' => exact .inr ⟨rfl, ⟨rest', rfl⟩, rfl⟩
  | _ =>
    cases hl
    cases hc

def symbols : List (List Char × Token) :=
  [(['+'], .plus), (['-'], .minus), (['*'], .star), (['/'], .slash), (['^'], .caret),
    (['*', '*'], .caret), (['('], .openParen), ([')'], .closeParen)]

theorem Lexeme.symbol {c : Char} {l rest cs : List Char} {t : Token} (h : Lexeme l rest t)
    (hl : l = c :: cs) (hd : c.isDigit = false) (hp : c ≠ '.') (hw : c.isLower = false) :
    (l, t) ∈ symbols := by
  cases h with
  | @number n _ hn =>
    obtain ⟨d, ds, ht, hd'⟩ := hn.head
    rw [ht] at hl
    cases hl
    rcases hd' with hd' | rfl
    · rw [hd] at hd'
      cases hd'
    · exact absurd rfl hp
  | name _ _ hlow =>
    subst hl
    have hlow := hlow c List.mem_cons_self
    rw [hw] at hlow
    cases hlow
  | log10 =>
    cases hl
    cases hw
  | plus | minus | star | slash | caret | stars | openParen | closeParen => decide

theorem symbols_unique {l : List Char} {t t' : Token} (h : (l, t) ∈ symbols)
    (h' : (l, t') ∈ symbols) : t = t' := by
  simp only [symbols, List.mem_cons, Prod.mk.injEq, List.not_mem_nil, or_false] at h
  rcases h with ⟨rfl, rfl⟩ | ⟨rfl, rfl⟩ | ⟨rfl, rfl⟩ | ⟨rfl, rfl⟩ | ⟨rfl, rfl⟩ | ⟨rfl, rfl⟩ |
    ⟨rfl, rfl⟩ | ⟨rfl, rfl⟩ <;>
  · simp [symbols] at h'
    exact h'.symm

/-- A lexeme spells one token. -/
theorem Lexeme.unique {l rest : List Char} {t t' : Token} (h : Lexeme l rest t)
    (h' : Lexeme l rest t') : t = t' := by
  obtain ⟨c, cs, hl, -⟩ := h.begins
  by_cases hd : c.isDigit = true ∨ c = '.'
  · obtain ⟨n, hn, hln, rfl⟩ := h.literal hl hd
    obtain ⟨n', hn', hln', rfl⟩ := h'.literal hl hd
    rw [Numeral.text_injective Numeral.marks_e hn hn' (hln.symm.trans hln')]
  · obtain ⟨hd, hp⟩ := not_or.1 hd
    by_cases hw : c.isLower = true
    · rcases h.letters hl hw with ⟨hlow, rfl⟩ | ⟨rfl, -, rfl⟩ <;>
        rcases h'.letters hl hw with ⟨hlow2, rfl⟩ | ⟨hl2, -, rfl⟩
      · rfl
      · subst hl2
        exact absurd (hlow '1' (by decide)) (by decide)
      · exact absurd (hlow2 '1' (by decide)) (by decide)
      · rfl
    · simp only [Bool.not_eq_true] at hd hw
      exact symbols_unique (h.symbol hl hd hp hw) (h'.symbol hl hd hp hw)

namespace Longest

variable {cs l l' rest rest' : List Char} {t t' : Token}

theorem unique (h : Longest cs l rest t) (h' : Longest cs l' rest' t') :
    l = l' ∧ rest = rest' ∧ t = t' := by
  have hlen : l.length = l'.length :=
    Nat.le_antisymm (h'.longest l rest t h.split h.lexeme) (h.longest l' rest' t' h'.split h'.lexeme)
  have hsplit : l ++ rest = l' ++ rest' := h.split.symm.trans h'.split
  obtain ⟨rfl, rfl⟩ := List.append_inj hsplit hlen
  exact ⟨rfl, rfl, h.lexeme.unique h'.lexeme⟩

theorem literal {n : Numeral} {c : Char} (hc : c.isDigit = true ∨ c = '.')
    (h : Numeral.scan (· == 'e') (c :: cs) = some (n, rest)) :
    Longest (c :: cs) n.text rest (.number n.value.toFloat) := by
  obtain ⟨hsplit, hn⟩ := Numeral.scan_sound h
  refine ⟨hsplit, .number rest hn, ?_⟩
  intro l' rest' t' hs' hl'
  obtain ⟨ds, hl, -⟩ := hl'.first hs'
  obtain ⟨n', hn', hln', -⟩ := hl'.literal hl hc
  obtain ⟨m, r, hm, hlen⟩ := Numeral.scan_append Numeral.marks_e hn' rest'
  rw [← hln', ← hs', h] at hm
  cases hm
  rw [hln']
  exact hlen

/-- A maximal run of letters is the longest lexeme, unless it is the name in `log10(`. -/
theorem letters {c : Char} (hc : c.isLower = true) :
    Longest (c :: cs) ((c :: cs).takeWhile Char.isLower) ((c :: cs).dropWhile Char.isLower)
        (.name (String.ofList ((c :: cs).takeWhile Char.isLower))) ∨
      ∃ rest, c :: cs = ['l', 'o', 'g', '1', '0'] ++ '(' :: rest := by
  by_cases hlog : ∃ rest, c :: cs = ['l', 'o', 'g', '1', '0'] ++ '(' :: rest
  · exact .inr hlog
  left
  have hne : (c :: cs).takeWhile Char.isLower ≠ [] := by simp [hc]
  have hall : ∀ d ∈ (c :: cs).takeWhile Char.isLower, d.isLower = true := by
    have h0 : ((c :: cs).takeWhile Char.isLower).all Char.isLower = true := List.all_takeWhile
    exact fun d hd => List.all_eq_true.1 h0 d hd
  refine ⟨List.takeWhile_append_dropWhile.symm, .name _ hne hall, ?_⟩
  intro l' rest' t' hs' hl'
  obtain ⟨ds, hl, -⟩ := hl'.first hs'
  rcases hl'.letters hl hc with ⟨hlow, -⟩ | ⟨hl, ⟨r, hr⟩, -⟩
  · rw [hs', List.takeWhile_append_of_pos hlow, List.length_append]
    omega
  · exact absurd ⟨r, by rw [hs', hl, hr]⟩ hlog

theorem log10 (rest : List Char) :
    Longest (['l', 'o', 'g', '1', '0'] ++ '(' :: rest) ['l', 'o', 'g', '1', '0'] ('(' :: rest)
      (.name "log10") := by
  refine ⟨rfl, .log10 rest, ?_⟩
  intro l' rest' t' hs' hl'
  obtain ⟨ds, hl, -⟩ := hl'.first hs'
  rcases hl'.letters hl (by decide) with ⟨hlow, -⟩ | ⟨hl, -, -⟩
  · -- a run of letters ends before the digits
    by_cases hlen : l'.length ≤ 3
    · exact Nat.le_trans hlen (by decide)
    · have hget : l'[3]? = some '1' := by
        have h3 : 3 < l'.length := by omega
        rw [← List.getElem?_append_left h3, ← hs']
        rfl
      exact absurd (hlow '1' (List.mem_of_getElem? hget)) (by decide)
  · exact Nat.le_of_eq (congrArg List.length hl)

theorem symbol {c : Char} (hc : c ∈ ['+', '-', '/', '^', '(', ')']) (h : Lexeme [c] cs t) :
    Longest (c :: cs) [c] cs t := by
  refine ⟨rfl, h, ?_⟩
  intro l' rest' t' hs' hl'
  obtain ⟨ds, rfl, -⟩ := hl'.first hs'
  simp only [List.mem_cons, List.not_mem_nil, or_false] at hc
  have hsym : (c :: ds, t') ∈ symbols := by
    rcases hc with rfl | rfl | rfl | rfl | rfl | rfl <;>
      exact hl'.symbol rfl (by decide) (by decide) (by decide)
  rcases hc with rfl | rfl | rfl | rfl | rfl | rfl <;>
  · simp [symbols] at hsym
    simp [hsym]

theorem stars (rest : List Char) : Longest ('*' :: '*' :: rest) ['*', '*'] rest .caret := by
  refine ⟨rfl, .stars rest, ?_⟩
  intro l' rest' t' hs' hl'
  obtain ⟨ds, rfl, -⟩ := hl'.first hs'
  have hsym := hl'.symbol rfl (by decide) (by decide) (by decide)
  simp [symbols] at hsym
  rcases hsym with ⟨rfl, -⟩ | ⟨rfl, -⟩ <;> simp

theorem star (h : cs.head? ≠ some '*') : Longest ('*' :: cs) ['*'] cs .star := by
  refine ⟨rfl, .star cs, ?_⟩
  intro l' rest' t' hs' hl'
  obtain ⟨ds, rfl, -⟩ := hl'.first hs'
  have hsym := hl'.symbol rfl (by decide) (by decide) (by decide)
  simp [symbols] at hsym
  rcases hsym with ⟨rfl, -⟩ | ⟨rfl, -⟩
  · simp
  · cases hs'
    simp at h

end Longest

/-! ## Where no token can be read -/

theorem Longest.beginsLexeme {c : Char} {cs l rest : List Char} {t : Token}
    (h : Longest (c :: cs) l rest t) : BeginsLexeme c := by
  obtain ⟨d, ds, rfl, hd⟩ := h.lexeme.begins
  rw [(List.cons.inj h.split).1]
  exact hd

theorem Longest.not_undigited {cs l rest : List Char} {t : Token}
    (h : Longest ('.' :: cs) l rest t) : ¬ Undigited cs := by
  obtain ⟨ds, hl, -⟩ := h.lexeme.first h.split
  obtain ⟨n, hn, hln, -⟩ := h.lexeme.literal hl (.inr rfl)
  exact hn.not_undigited (hln ▸ h.split)

theorem Longest.not_fails {cs l rest : List Char} {t : Token} {f : Fault}
    (h : Longest cs l rest t) (ht : t.IsFinite) : ¬ Fails cs f := by
  intro hF
  cases hF with
  | unexpected _ hc => exact hc h.beginsLexeme
  | point hu => exact h.not_undigited hu
  | outOfRange hL hv =>
    obtain ⟨-, -, rfl⟩ := h.unique hL
    have hv' : _ = true := ht
    rw [hv] at hv'
    cases hv'

theorem Fails.unique {cs : List Char} {f f' : Fault} (h : Fails cs f) (h' : Fails cs f') :
    f = f' := by
  cases h with
  | unexpected _ hc =>
    cases h' with
    | unexpected => rfl
    | point => exact absurd (.inr (.inl rfl)) hc
    | outOfRange hL => exact absurd hL.beginsLexeme hc
  | point hu =>
    cases h' with
    | unexpected _ hc => exact absurd (.inr (.inl rfl)) hc
    | point => rfl
    | outOfRange hL => exact absurd hu hL.not_undigited
  | outOfRange hL =>
    cases h' with
    | unexpected _ hc => exact absurd hL.beginsLexeme hc
    | point hu => exact absurd hu hL.not_undigited
    | outOfRange hL' => rw [(hL.unique hL').1]

/-! ## The first token of a text -/

theorem no_literal {cs : List Char} (h : Numeral.scan (· == 'e') cs = none) {n : Numeral}
    (hn : n.IsLiteral (· == 'e')) (rest : List Char) : cs ≠ n.text ++ rest := by
  rintro rfl
  obtain ⟨m, r, hm, -⟩ := Numeral.scan_append Numeral.marks_e hn rest
  rw [h] at hm
  cases hm

/-- Only a point without digits begins no literal. -/
theorem Fails.of_scan_none {c : Char} {cs : List Char} (hc : c.isDigit = true ∨ c = '.')
    (h : Numeral.scan (· == 'e') (c :: cs) = none) : Fails (c :: cs) .malformedNumber := by
  rcases hc with hc | rfl
  · have hn : (⟨[c], none, none⟩ : Numeral).IsLiteral (· == 'e') :=
      ⟨by simpa [AllDigits] using hc, by simp, .inl (by simp), by simp⟩
    exact absurd rfl (no_literal h hn cs)
  · refine .point ?_
    intro d hd
    obtain ⟨ds, rfl⟩ : ∃ ds, cs = d :: ds := by
      cases cs with
      | nil => cases hd
      | cons d' ds => cases hd; exact ⟨ds, rfl⟩
    refine Bool.eq_false_iff.2 fun hdig => ?_
    have hn : (⟨[], some [d], none⟩ : Numeral).IsLiteral (· == 'e') :=
      ⟨by simp [AllDigits], by simpa [AllDigits] using hdig, .inr (by simp), by simp⟩
    exact absurd rfl (no_literal h hn ds)

theorem firstNumber_spec {c : Char} (cs : List Char) (hc : c.isDigit = true ∨ c = '.') :
    (∃ l rest t, Token.firstNumber (c :: cs) = .ok (t, l.length) ∧ Longest (c :: cs) l rest t ∧
        t.IsFinite) ∨
      ∃ f, Token.firstNumber (c :: cs) = .error f ∧ Fails (c :: cs) f := by
  unfold Token.firstNumber
  split
  · next hs => exact .inr ⟨_, rfl, .of_scan_none hc hs⟩
  · next n rest hs =>
    have hL := Longest.literal hc hs
    by_cases hfin : n.value.toFloat.isFinite = true
    · exact .inl ⟨_, _, _, if_pos hfin, hL, hfin⟩
    · exact .inr ⟨_, if_neg hfin, .outOfRange hL (by simpa using hfin)⟩

theorem firstName_spec {c : Char} (cs : List Char) (hc : c.isLower = true) :
    ∃ l rest t, Token.firstName (c :: cs) = (t, l.length) ∧ Longest (c :: cs) l rest t ∧
      t.IsFinite := by
  unfold Token.firstName
  by_cases hlog : ∃ rest, c :: cs = ['l', 'o', 'g', '1', '0'] ++ '(' :: rest
  · obtain ⟨rest, hrest⟩ := hlog
    rw [hrest]
    exact ⟨_, _, _, rfl, .log10 rest, trivial⟩
  · have hL := (Longest.letters hc).resolve_right hlog
    refine ⟨_, _, _, ?_, hL, trivial⟩
    rw [if_neg]
    simp only [Bool.and_eq_true, decide_eq_true_eq, List.isPrefixOf_iff_prefix]
    rintro ⟨hletters, rest, hrest⟩
    apply hlog
    refine ⟨rest, ?_⟩
    rw [hL.split, hletters, ← hrest]
    rfl

/-- Either the longest lexeme is read, or there is none to be read. -/
theorem first_spec (c : Char) (cs : List Char) :
    (∃ l rest t, Token.first c cs = .ok (t, l.length) ∧ Longest (c :: cs) l rest t ∧ t.IsFinite) ∨
      ∃ f, Token.first c cs = .error f ∧ Fails (c :: cs) f := by
  unfold Token.first
  split
  · exact .inl ⟨_, _, _, rfl, .symbol (by decide) (.plus cs), trivial⟩
  · exact .inl ⟨_, _, _, rfl, .symbol (by decide) (.minus cs), trivial⟩
  · exact .inl ⟨_, _, _, rfl, .symbol (by decide) (.slash cs), trivial⟩
  · exact .inl ⟨_, _, _, rfl, .symbol (by decide) (.caret cs), trivial⟩
  · exact .inl ⟨_, _, _, rfl, .symbol (by decide) (.openParen cs), trivial⟩
  · exact .inl ⟨_, _, _, rfl, .symbol (by decide) (.closeParen cs), trivial⟩
  · by_cases h : cs.head? = some '*'
    · rw [if_pos h]
      cases cs with
      | nil => cases h
      | cons d ds =>
        cases h
        exact .inl ⟨_, _, _, rfl, .stars ds, trivial⟩
    · rw [if_neg h]
      exact .inl ⟨_, _, _, rfl, .star h, trivial⟩
  · next hplus hminus hslash hcaret hopen hclose hstar =>
    by_cases hnum : c.isDigit = true ∨ c = '.'
    · rw [if_pos (by simpa using hnum)]
      exact firstNumber_spec cs hnum
    rw [if_neg (by simpa using hnum)]
    by_cases hlow : c.isLower = true
    · rw [if_pos hlow]
      obtain ⟨l, rest, t, hname, hL, ht⟩ := firstName_spec cs hlow
      exact .inl ⟨l, rest, t, congrArg Except.ok hname, hL, ht⟩
    · rw [if_neg hlow]
      refine .inr ⟨_, rfl, .unexpected cs ?_⟩
      simp only [BeginsLexeme, List.mem_cons, List.not_mem_nil, or_false]
      grind

theorem first_of_longest {c : Char} {cs l rest : List Char} {t : Token}
    (h : Longest (c :: cs) l rest t) (ht : t.IsFinite) : Token.first c cs = .ok (t, l.length) := by
  rcases first_spec c cs with ⟨l', rest', t', hf, hL, -⟩ | ⟨f, -, hF⟩
  · obtain ⟨rfl, -, rfl⟩ := h.unique hL
    exact hf
  · exact absurd hF (h.not_fails ht)

theorem first_of_fails {c : Char} {cs : List Char} {f : Fault} (h : Fails (c :: cs) f) :
    Token.first c cs = .error f := by
  rcases first_spec c cs with ⟨l', rest', t', -, hL, ht⟩ | ⟨f', hf, hF⟩
  · exact absurd h (hL.not_fails ht)
  · rw [hf, hF.unique h]

/-! ## All tokens of a text -/

theorem tokensFrom_longest {p : Nat} {cs l rest : List Char} {t : Token}
    (h : Longest cs l rest t) (ht : t.IsFinite) :
    tokensFrom p cs = (tokensFrom (p + l.length) rest).map (⟨t, p⟩ :: ·) := by
  obtain ⟨c, l, rfl, -⟩ := h.lexeme.begins
  obtain rfl := h.split
  have hf : Token.first c (l ++ rest) = .ok (t, l.length + 1) := first_of_longest h ht
  rw [List.cons_append, tokensFrom, hf]
  have hdrop : (l ++ rest).drop (l.length + 1 - 1) = rest := by simp
  show Except.map _ (tokensFrom _ ((l ++ rest).drop (l.length + 1 - 1))) = _
  rw [hdrop]
  rfl

theorem tokensFrom_fails {p : Nat} {cs : List Char} {f : Fault} (h : Fails cs f) :
    tokensFrom p cs = .error ⟨f, p⟩ := by
  obtain ⟨c, cs, rfl⟩ : ∃ c ds, cs = c :: ds := by
    cases h with
    | unexpected | point => exact ⟨_, _, rfl⟩
    | outOfRange hL =>
      obtain ⟨d, ds, rfl, -⟩ := hL.lexeme.begins
      exact ⟨d, _, hL.split⟩
  rw [tokensFrom, first_of_fails h]

theorem Cut.tokensFrom {p : Nat} {cs : List Char} {ls : List (List Char)} {ts : List PlacedToken}
    (h : Cut p cs ls ts) : tokensFrom p cs = .ok ts := by
  induction h with
  | nil => rw [Quadrature.tokensFrom]
  | cons hL ht _ ih =>
    rw [tokensFrom_longest hL ht, ih]
    rfl

theorem Refused.tokensFrom {p : Nat} {cs : List Char} {e : SyntaxError} (h : Refused p cs e) :
    tokensFrom p cs = .error e := by
  induction h with
  | here hF => exact tokensFrom_fails hF
  | later hL ht _ ih =>
    rw [tokensFrom_longest hL ht, ih]
    rfl

/-- A text is cut to its end or refused. Every lexeme takes a character, so the induction is
on the length of the text that is left. -/
theorem cut_or_refused (p : Nat) (cs : List Char) :
    (∃ ls ts, Cut p cs ls ts) ∨ ∃ e, Refused p cs e := by
  match cs with
  | [] => exact .inl ⟨_, _, .nil p⟩
  | c :: cs =>
    rcases first_spec c cs with ⟨l, rest, t, -, hL, ht⟩ | ⟨f, -, hF⟩
    · have hpos := hL.lexeme.length_pos
      have hlt : rest.length < cs.length + 1 := by
        rw [← List.length_cons, hL.split, List.length_append]
        omega
      rcases cut_or_refused (p + l.length) rest with ⟨ls, ts, h⟩ | ⟨e, h⟩
      · exact .inl ⟨_, _, .cons hL ht h⟩
      · exact .inr ⟨e, .later hL ht h⟩
    · exact .inr ⟨_, .here hF⟩
termination_by cs.length

theorem tokensFrom_eq_ok {p : Nat} {cs : List Char} {ts : List PlacedToken} :
    tokensFrom p cs = .ok ts ↔ ∃ ls, Cut p cs ls ts := by
  constructor
  · intro h
    rcases cut_or_refused p cs with ⟨ls, ts', hC⟩ | ⟨e, hR⟩
    · rw [hC.tokensFrom] at h
      cases h
      exact ⟨ls, hC⟩
    · rw [hR.tokensFrom] at h
      cases h
  · rintro ⟨ls, h⟩
    exact h.tokensFrom

theorem tokensFrom_eq_error {p : Nat} {cs : List Char} {e : SyntaxError} :
    tokensFrom p cs = .error e ↔ Refused p cs e := by
  constructor
  · intro h
    rcases cut_or_refused p cs with ⟨ls, ts, hC⟩ | ⟨e', hR⟩
    · rw [hC.tokensFrom] at h
      cases h
    · rw [hR.tokensFrom] at h
      cases h
      exact hR
  · exact Refused.tokensFrom

/-- The lexemes `ls` of the tokens `ts` cover the text `cs` that begins at `p`: each token
stands where the lexemes before it end. -/
structure Tiles (p : Nat) (cs : List Char) (ls : List (List Char)) (ts : List PlacedToken) :
    Prop where
  flatten : ls.flatten = cs
  length : ls.length = ts.length
  nonempty : ∀ l ∈ ls, l ≠ []
  position : ∀ i (h : i < ts.length), ts[i].position = p + (ls.take i).flatten.length

theorem Cut.tiles {p : Nat} {cs : List Char} {ls : List (List Char)} {ts : List PlacedToken}
    (h : Cut p cs ls ts) : Tiles p cs ls ts := by
  induction h with
  | nil p => exact ⟨rfl, rfl, by simp, by simp⟩
  | @cons p cs l rest t ls ts hL _ _ ih =>
    obtain ⟨hflat, hlen, hne, hpos⟩ := ih
    refine ⟨?_, ?_, ?_, ?_⟩
    · rw [List.flatten_cons, hflat, hL.split]
    · rw [List.length_cons, List.length_cons, hlen]
    · intro l' hl'
      rcases List.mem_cons.1 hl' with rfl | hl'
      · exact List.ne_nil_of_length_pos hL.lexeme.length_pos
      · exact hne l' hl'
    · intro i hi
      cases i with
      | zero => rfl
      | succ i =>
        have hi' : i < ts.length := Nat.lt_of_succ_lt_succ hi
        have h0 := hpos i hi'
        rw [List.getElem_cons_succ, h0, List.take_succ_cons, List.flatten_cons, List.length_append]
        omega

namespace Tiles

variable {p : Nat} {cs : List Char} {ls : List (List Char)} {ts : List PlacedToken}

theorem take_length (h : Tiles p cs ls ts) {i j : Nat} (hij : i < j) (hj : j ≤ ts.length) :
    (ls.take i).flatten.length < (ls.take j).flatten.length := by
  have hi : i < ls.length := by rw [h.length]; omega
  have hsplit : ls.take j = ls.take i ++ ls[i] :: (ls.take j).drop (i + 1) := by
    have h1 : (ls.take j).take i = ls.take i := by rw [List.take_take]; congr 1; omega
    have h2 : i < (ls.take j).length := by rw [List.length_take]; omega
    have h3 : (ls.take j)[i] = ls[i] := List.getElem_take
    rw [← h1, ← h3, List.getElem_cons_drop, List.take_append_drop]
  have hpos : 0 < ls[i].length :=
    List.length_pos_iff.2 (h.nonempty _ (List.getElem_mem hi))
  rw [hsplit, List.flatten_append, List.length_append, List.flatten_cons, List.length_append]
  omega

theorem increasing (h : Tiles p cs ls ts) : (ts.map PlacedToken.position).Pairwise (· < ·) := by
  rw [List.pairwise_iff_getElem]
  intro i j hi hj hij
  rw [List.length_map] at hi hj
  have hlt := h.take_length hij (Nat.le_of_lt hj)
  rw [List.getElem_map, List.getElem_map, h.position i hi, h.position j hj]
  omega

theorem position_lt (h : Tiles p cs ls ts) {i : Nat} (hi : i < ts.length) :
    ts[i].position < p + cs.length := by
  have hlt := h.take_length hi (Nat.le_refl _)
  rw [← h.length, List.take_length, h.flatten] at hlt
  rw [h.position i hi]
  omega

end Tiles

theorem readFloat_scan {cs rest : List Char} {n : Numeral}
    (h : Numeral.scan (· == 'e') cs = some (n, rest)) :
    n.IsLiteral (· == 'e') ∧ readFloat (String.ofList n.text) = some n.value.toFloat := by
  have hn := (Numeral.scan_sound h).2
  exact ⟨hn, readFloat_literal hn⟩

/-- A text has tokens exactly when it can be cut into longest lexemes, which then cover it
without gap or overlap; otherwise it is refused where the first lexeme fails. What is
taken for a literal is always read as a number. -/
theorem tokens_iff_cut (cs : List Char) :
    (∀ ts, tokens cs = .ok ts ↔ ∃ ls, Cut 0 cs ls ts) ∧
      (∀ ls ts, Cut 0 cs ls ts → Tiles 0 cs ls ts ∧ (∀ t ∈ ts.head?, t.position = 0) ∧
        (ts.map PlacedToken.position).Pairwise (· < ·)) ∧
      (∀ e, tokens cs = .error e ↔ Refused 0 cs e) ∧
      ∀ (cs' rest : List Char) (n : Numeral), Numeral.scan (· == 'e') cs' = some (n, rest) →
        n.IsLiteral (· == 'e') ∧ readFloat (String.ofList n.text) = some n.value.toFloat := by
  refine ⟨fun ts => tokensFrom_eq_ok, ?_, fun e => tokensFrom_eq_error,
    fun cs' rest n => readFloat_scan⟩
  intro ls ts h
  refine ⟨h.tiles, ?_, h.tiles.increasing⟩
  intro t ht
  cases h with
  | nil => cases ht
  | cons =>
    cases ht
    rfl

end Quadrature
