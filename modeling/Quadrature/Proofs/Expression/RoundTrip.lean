import Quadrature.Expression.Formula
import Quadrature.Proofs.Expression.Parsing
import Quadrature.Proofs.Expression.Printing
import Quadrature.Proofs.Text

/-!
# Normalized texts read back

The expressions that come back from their own text are the canonical ones: their numbers
are finite and have no sign, and no power has the base `e`. Everything that is read from
a text is canonical (`canonical_of_tokens`), so the normalized text of a formula spells
the same formula again.
-/

namespace Quadrature

namespace Expression

def Canonical : Expression → Prop
  | number v => v.isFinite = true ∧ isNegative v = false
  | var | const _ => True
  | neg t | call _ t => t.Canonical
  | binary op l r => (op = .pow → l ≠ .const .e) ∧ l.Canonical ∧ r.Canonical

theorem Canonical.binary {op : Operator} {l r : Expression} (ho : op ≠ .pow) (hl : l.Canonical)
    (hr : r.Canonical) : (binary op l r).Canonical :=
  ⟨fun h => absurd h ho, hl, hr⟩

theorem Canonical.finite {t : Expression} (h : t.Canonical) : t.Finite := by
  induction t with
  | number => exact h.1
  | var | const => trivial
  | neg _ ih | call _ _ ih => exact ih h
  | binary _ _ _ ihl ihr => exact ⟨ihl h.2.1, ihr h.2.2⟩

end Expression

/-! ## Reading the tokens of a canonical expression -/

/-- An operand may stand without parentheses where it fits, and anywhere with them. -/
theorem Derives.parenthesized {ts : List Token} {t : Expression} (c : Category)
    (h : Derives t.category ts t) : Derives c (Token.parenthesized ts (!t.fits c)) t := by
  cases hfit : t.fits c with
  | true => exact h.weaken (of_decide_eq_true hfit)
  | false => exact h.sum.group.weaken (Nat.zero_le _)

theorem Derives.binary {op : Operator} {ls rs : List Token} {l r : Expression}
    (hbase : op = .pow → l ≠ .const .e) (hl : Derives op.left ls l)
    (hr : Derives op.rightRead rs r) :
    Derives op.category (ls ++ op.token :: rs) (.binary op l r) := by
  cases op with
  | add => exact hl.add hr
  | sub => exact hl.sub hr
  | mul => exact hl.times hr
  | div => exact hl.divided hr
  | pow => exact hl.raised (hbase rfl) hr

theorem Expression.Canonical.printed_number {v : Float} (h : (number v).Canonical) :
    (number v).printed = [.number v] := by
  rw [printed, h.2, abs_of_unsigned h.1 h.2]
  rfl

theorem Expression.Canonical.derives {t : Expression} (h : t.Canonical) :
    Derives t.category t.printed t := by
  induction t with
  | number v =>
    rw [h.printed_number]
    exact .number v
  | var => exact .var
  | const c => exact .const c
  | neg t ih => exact ((ih h).parenthesized .signed).negative
  | call f t ih => exact .call f.name_mem_spellings (ih h).sum
  | binary op l r ihl ihr =>
    obtain ⟨hbase, hl, hr⟩ := h
    have hright := ((ihr hr).parenthesized op.right).weaken op.right_le_rightRead
    exact .binary hbase ((ihl hl).parenthesized op.left) hright

/-- A text is read as what its tokens derive. -/
theorem Spells.ofFolded_iff {text : String} {us : List Token} {t : Expression}
    (h : Spells text us) : Expression.ofFolded text.toList = .ok t ↔ Derives .sum us t := by
  have hL := h [] .nil
  rw [List.append_nil] at hL
  obtain ⟨ts, htok, rfl⟩ := hL.tokensFrom 0
  rw [ofFolded_eq htok]
  exact ⟨derives_of_ofTokens, Derives.ofTokens⟩

/-- Canonical expressions are read back from their text. -/
theorem Expression.Canonical.ofFolded_text {t : Expression} (h : t.Canonical) :
    ofFolded t.text.toList = .ok t :=
  (spells h.finite).ofFolded_iff.2 h.derives.sum

/-! ## Whatever is read is canonical -/

/-- Numbers as literals give them. -/
def Token.IsLiteral : Token → Prop
  | number v => v.isFinite = true ∧ isNegative v = false
  | _ => True

theorem Lexeme.isLiteral {l rest : List Char} {t : Token} (h : Lexeme l rest t)
    (ht : t.IsFinite) : t.IsLiteral := by
  cases h with
  | number => exact ⟨ht, toFloat_unsigned ht⟩
  | _ => trivial

theorem Cut.isLiteral {p : Nat} {cs : List Char} {ls : List (List Char)} {ts : List PlacedToken}
    (h : Cut p cs ls ts) : ∀ k ∈ ts.map PlacedToken.token, k.IsLiteral := by
  induction h with
  | nil => intro k hk; cases hk
  | cons hL ht _ ih =>
    intro k hk
    rcases List.mem_cons.1 hk with rfl | hk
    · exact hL.lexeme.isLiteral ht
    · exact ih k hk

theorem Derives.canonical {c : Category} {ts : List Token} {t : Expression} (h : Derives c ts t)
    (hts : ∀ k ∈ ts, k.IsLiteral) : t.Canonical := by
  induction h with
  | number v => exact hts (.number v) List.mem_cons_self
  | var | const => trivial
  | call _ _ ih => exact ih fun k hk => hts k (by simp [hk])
  | reciprocal _ _ ih =>
    have hone : (Expression.number 1.0).Canonical := ⟨by rfl, by decide +kernel⟩
    exact .binary (by decide) hone (ih fun k hk => hts k (by simp [hk]))
  | group _ ih => exact ih fun k hk => hts k (by simp [hk])
  | bare _ ih | unsigned _ ih | factor _ ih | term _ ih => exact ih hts
  | positive _ ih | negative _ ih => exact ih fun k hk => hts k (by simp [hk])
  | exponential _ _ _ ih => exact ih fun k hk => hts k (by simp [hk])
  | raised _ hne _ ihb ihe =>
    exact ⟨fun _ => hne, ihb fun k hk => hts k (by simp [hk]), ihe fun k hk => hts k (by simp [hk])⟩
  | times _ _ ihl ihr | divided _ _ ihl ihr | add _ _ ihl ihr | sub _ _ ihl ihr =>
    have hl := ihl fun k hk => hts k (by simp [hk])
    have hr := ihr fun k hk => hts k (by simp [hk])
    exact .binary (by decide) hl hr
  | juxtaposed _ _ _ ihl ihr =>
    have hl := ihl fun k hk => hts k (List.mem_append_left _ hk)
    have hr := ihr fun k hk => hts k (List.mem_append_right _ hk)
    exact .binary (by decide) hl hr

theorem canonical_of_tokens {cs : List Char} {ts : List PlacedToken} {ending : Nat}
    {t : Expression} (hts : tokens cs = .ok ts) (ht : Expression.ofTokens ending ts = .ok t) :
    t.Canonical := by
  obtain ⟨ls, hC⟩ := tokensFrom_eq_ok.1 hts
  exact (derives_of_ofTokens ht).canonical hC.isLiteral

theorem tokens_of_ofFolded {cs : List Char} {t : Expression}
    (h : Expression.ofFolded cs = .ok t) :
    ∃ ts, tokens cs = .ok ts ∧ Expression.ofTokens cs.length ts = .ok t := by
  cases hts : tokens cs with
  | error e =>
    rw [Expression.ofFolded, hts] at h
    cases h
  | ok ts => exact ⟨ts, rfl, by rw [← h, ofFolded_eq hts]⟩

theorem canonical_of_ofFolded {cs : List Char} {t : Expression}
    (h : Expression.ofFolded cs = .ok t) : t.Canonical := by
  obtain ⟨ts, hts, ht⟩ := tokens_of_ofFolded h
  exact canonical_of_tokens hts ht

/-! ## Only canonical expressions come back -/

namespace Expression

/-- Equality of expressions with numbers compared as doubles: zeros of either sign are
equal, and NaN is not equal to itself. -/
inductive Same : Expression → Expression → Prop where
  | number {v w : Float} : (v == w) = true → Same (number v) (number w)
  | var : Same var var
  | const (c : Constant) : Same (const c) (const c)
  | neg {t u : Expression} : Same t u → Same (neg t) (neg u)
  | call (f : NamedFunction) {t u : Expression} : Same t u → Same (call f t) (call f u)
  | binary (op : Operator) {l l' r r' : Expression} : Same l l' → Same r r' →
      Same (binary op l r) (binary op l' r')

theorem Same.refl {t : Expression} (h : t.Finite) : Same t t := by
  induction t with
  | number => exact .number (beq_self h)
  | var => exact .var
  | const c => exact .const c
  | neg t ih => exact .neg (ih h)
  | call f t ih => exact .call f (ih h)
  | binary op l r ihl ihr => exact .binary op (ihl h.1) (ihr h.2)

/-- Negations and differences. -/
def minuses : Expression → Nat
  | number _ | var | const _ => 0
  | neg t => t.minuses + 1
  | call _ t => t.minuses
  | binary op l r => l.minuses + r.minuses + if op = .sub then 1 else 0

/-- Numbers with a minus sign. -/
def negatives : Expression → Nat
  | number v => if isNegative v then 1 else 0
  | var | const _ => 0
  | neg t | call _ t => t.negatives
  | binary _ l r => l.negatives + r.negatives

theorem count_parenthesized (ts : List Token) (b : Bool) :
    (Token.parenthesized ts b).count .minus = ts.count .minus := by
  cases b <;> simp [Token.parenthesized]

theorem count_printed (t : Expression) :
    t.printed.count .minus = t.minuses + t.negatives := by
  induction t with
  | number v =>
    unfold printed minuses negatives
    split <;> simp
  | var | const => simp [printed, minuses, negatives]
  | neg t ih => simp [printed, minuses, negatives, count_parenthesized, ih]; omega
  | call f t ih => simp [printed, minuses, negatives, ih]
  | binary op l r ihl ihr =>
    cases op <;>
      simp [printed, minuses, negatives, count_parenthesized, ihl, ihr, Operator.token] <;> omega

theorem Same.minuses {t u : Expression} (h : Same t u) : t.minuses = u.minuses := by
  induction h with
  | number | var | const => rfl
  | neg _ ih => rw [Expression.minuses, Expression.minuses, ih]
  | call _ _ ih => exact ih
  | binary _ _ _ ihl ihr => rw [Expression.minuses, Expression.minuses, ihl, ihr]

theorem Same.finite {t u : Expression} (h : Same t u) (hu : u.Canonical) : t.Finite := by
  induction h with
  | number hvw => exact (unpack_of_beq hvw hu.1).1
  | var | const => trivial
  | neg _ ih | call _ _ ih => exact ih hu
  | binary _ _ _ ihl ihr => exact ⟨ihl hu.2.1, ihr hu.2.2⟩

/-- What is equal to a canonical expression can only have zeros of the wrong sign. -/
theorem Same.canonical {t u : Expression} (h : Same t u) (hu : u.Canonical)
    (hneg : t.negatives = 0) : t.Canonical := by
  induction h with
  | number hvw =>
    refine ⟨(unpack_of_beq hvw hu.1).1, ?_⟩
    simpa [negatives] using hneg
  | var | const => trivial
  | neg _ ih | call _ _ ih => exact ih hu hneg
  | @binary op l l' r r' hl _ ihl ihr =>
    obtain ⟨hbase, hl', hr'⟩ := hu
    simp only [negatives] at hneg
    refine ⟨?_, ihl hl' (by omega), ihr hr' (by omega)⟩
    rintro hop rfl
    cases hl
    exact hbase hop rfl

end Expression

/-- The minus signs among the tokens are the ones of the expression. -/
theorem Derives.count_minus {c : Category} {ts : List Token} {t : Expression}
    (h : Derives c ts t) : ts.count .minus = t.minuses := by
  induction h with
  | number | var | const => simp [Expression.minuses]
  | call _ _ ih | reciprocal _ _ ih | group _ ih =>
    simp [Expression.minuses, ih]
  | bare _ ih | unsigned _ ih | factor _ ih | term _ ih => exact ih
  | positive _ ih | negative _ ih => simp [Expression.minuses, ih]
  | exponential _ _ ihb ihe =>
    have hb : List.count Token.minus _ = 0 := ihb
    simp [Expression.minuses, ihe, hb]
  | raised _ _ _ ihb ihe => simp [Expression.minuses, ihb, ihe]
  | times _ _ ihl ihr | divided _ _ ihl ihr | add _ _ ihl ihr =>
    simp [Expression.minuses, ihl, ihr]
  | sub _ _ ihl ihr =>
    simp [Expression.minuses, ihl, ihr]
    omega
  | juxtaposed _ _ _ ihl ihr =>
    rw [List.count_append, ihl, ihr]
    simp [Expression.minuses]

/-- An expression that is equal to what its text is read as has no number with a sign: the
sign would be read as a negation. -/
theorem Expression.Same.canonical_of_ofFolded {t u : Expression} (h : Same t u)
    (hu : ofFolded t.text.toList = .ok u) : t.Canonical := by
  have huc := Quadrature.canonical_of_ofFolded hu
  have hD : Derives .sum t.printed u := (spells (h.finite huc)).ofFolded_iff.1 hu
  have hcount := hD.count_minus
  rw [t.count_printed, h.minuses] at hcount
  exact h.canonical huc (by omega)

/-! ## Normalized texts of formulas -/

theorem Lexeme.small {l rest : List Char} {t : Token} (h : Lexeme l rest t) :
    ∀ c ∈ l, Text.IsSmall c := by
  intro c hc
  cases h with
  | number _ hn =>
    rcases hn.mem_text hc with hc | rfl | hc | rfl | rfl
    · exact .of_digit hc
    · decide
    · obtain rfl : c = 'e' := by simpa using hc
      decide
    · decide
    · decide
  | name _ _ hl => exact .of_lower (hl c hc)
  | log10 | plus | minus | star | slash | caret | stars | openParen | closeParen =>
    exact Text.isSmall_of_all (by decide) c hc

/-- Folding changes no text that has tokens. -/
theorem Cut.foldChars {p : Nat} {cs : List Char} {ls : List (List Char)} {ts : List PlacedToken}
    (h : Cut p cs ls ts) : Text.foldChars cs = cs := by
  apply Text.foldChars_eq_self
  induction h with
  | nil => intro c hc; cases hc
  | cons hL _ _ ih =>
    intro c hc
    rw [hL.split] at hc
    rcases List.mem_append.1 hc with hc | hc
    · exact hL.lexeme.small c hc
    · exact ih c hc

theorem Expression.Canonical.ofFolded_fold {t : Expression} (h : t.Canonical) :
    ofFolded (Text.foldChars t.text.toList) = .ok t := by
  obtain ⟨ts, hts, -⟩ := tokens_of_ofFolded h.ofFolded_text
  obtain ⟨ls, hC⟩ := tokensFrom_eq_ok.1 hts
  rw [hC.foldChars]
  exact h.ofFolded_text

section Formulas

variable [Elementary Float] {probes : List Float} {source : String}

theorem compileAt_of_ofFolded {t : Expression}
    (h : Expression.ofFolded (Text.foldChars source.toList) = .ok t) :
    Formula.compileAt probes source =
      if probes.any fun x => (t.evaluate x).isOk then .ok ⟨source, t⟩
      else .error (.domain t.text) := by
  rw [Formula.compileAt, h]
  rfl

theorem ofFolded_of_compileAt {f : Formula} (h : Formula.compileAt probes source = .ok f) :
    Expression.ofFolded (Text.foldChars source.toList) = .ok f.body := by
  cases ht : Expression.ofFolded (Text.foldChars source.toList) with
  | error e =>
    rw [Formula.compileAt, ht] at h
    cases h
  | ok t =>
    rw [compileAt_of_ofFolded ht] at h
    split at h
    · cases h; rfl
    · cases h

theorem ofFolded_of_domain {n : String}
    (h : Formula.compileAt probes source = .error (.domain n)) :
    ∃ t, Expression.ofFolded (Text.foldChars source.toList) = .ok t ∧ n = t.text := by
  cases ht : Expression.ofFolded (Text.foldChars source.toList) with
  | error e =>
    rw [Formula.compileAt, ht] at h
    cases h
  | ok t =>
    rw [compileAt_of_ofFolded ht] at h
    split at h
    · cases h
    · cases h; exact ⟨t, rfl, rfl⟩

/-- The normalized text of a formula is a formula with the same body. -/
theorem compileAt_normalized {f : Formula} (h : Formula.compileAt probes source = .ok f) :
    Formula.compileAt probes f.normalized = .ok ⟨f.normalized, f.body⟩ := by
  have ht := ofFolded_of_compileAt h
  have hback := (canonical_of_ofFolded ht).ofFolded_fold
  rw [compileAt_of_ofFolded ht] at h
  show Formula.compileAt probes f.body.text = _
  rw [compileAt_of_ofFolded hback]
  split at h
  · next hok => rw [if_pos hok]; rfl
  · cases h

/-- A text without a value at any probe has a normalized text without one. -/
theorem compileAt_domain {n : String}
    (h : Formula.compileAt probes source = .error (.domain n)) :
    Formula.compileAt probes n = .error (.domain n) := by
  obtain ⟨t, ht, rfl⟩ := ofFolded_of_domain h
  have hback := (canonical_of_ofFolded ht).ofFolded_fold
  rw [compileAt_of_ofFolded ht] at h
  rw [compileAt_of_ofFolded hback]
  split at h
  · cases h
  · next hok => rw [if_neg hok]

end Formulas

/-- The canonical expressions are the ones that come back from their own text, and nothing
else is ever read from a text; so the normalized text of a formula spells it again. -/
theorem ofFolded_text_iff_canonical :
    (∀ t : Expression, Expression.ofFolded t.text.toList = .ok t ↔ t.Canonical) ∧
      (∀ t : Expression, (∃ u, Expression.ofFolded t.text.toList = .ok u ∧ t.Same u) ↔
        t.Canonical) ∧
      (∀ (cs : List Char) (ts : List PlacedToken) (ending : Nat) (t : Expression),
        tokens cs = .ok ts → Expression.ofTokens ending ts = .ok t → t.Canonical) ∧
      ∀ [Elementary Float] (probes : List Float) (source : String),
        (∀ f, Formula.compileAt probes source = .ok f →
          ∃ f', Formula.compileAt probes f.normalized = .ok f' ∧ f'.body = f.body ∧
            f'.normalized = f.normalized) ∧
          ∀ n, Formula.compileAt probes source = .error (.domain n) →
            Formula.compileAt probes n = .error (.domain n) := by
  refine ⟨?_, ?_, ?_, ?_⟩
  · exact fun t => ⟨canonical_of_ofFolded, Expression.Canonical.ofFolded_text⟩
  · intro t
    constructor
    · rintro ⟨u, hu, hsame⟩
      exact hsame.canonical_of_ofFolded hu
    · intro h
      exact ⟨t, h.ofFolded_text, .refl h.finite⟩
  · exact fun cs ts ending t => canonical_of_tokens
  · intro _ probes source
    refine ⟨fun f h => ?_, fun n h => compileAt_domain h⟩
    exact ⟨⟨f.normalized, f.body⟩, compileAt_normalized h, rfl, rfl⟩

end Quadrature
