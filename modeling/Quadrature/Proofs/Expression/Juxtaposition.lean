import Quadrature.Proofs.Expression.Reading

/-!
# Products without a sign

A factor that follows an operand directly is read as if a star stood between them: both
ways the reader closes the product on its left and opens a new one, so that from there on it
is in one state. At which depth and inside which construct that happens makes no difference.
-/

namespace Quadrature

open ParseState

/-- A token that can end an operand: a number, a closing parenthesis, the variable or a
constant. -/
def Token.endsOperand : Token → Bool
  | .number _ | .closeParen => true
  | .name letters => letters = "x" || letters = "e" || letters = "pi"
  | _ => false

variable {s s' : ParseState} {k l : Token} {ls rs : List Token} {stack : Stack} {t : Expression}

/-- Such a token begins no construct. -/
theorem readOperand_endsOperand (hl : l.endsOperand = true) (h : readOperand stack l = .ok s') :
    ∃ st p, s' = operator st p := by
  cases l with
  | number v =>
    cases h
    exact ⟨_, _, rfl⟩
  | name letters =>
    simp only [Token.endsOperand, Bool.or_eq_true, decide_eq_true_eq] at hl
    rcases hl with (rfl | rfl) | rfl <;> cases h <;> exact ⟨_, _, rfl⟩
  | closeParen => cases h
  | plus | minus | star | slash | caret | openParen => cases hl

/-- After it, whatever was open, the reader holds a primary. -/
theorem step_endsOperand (hl : l.endsOperand = true) (h : s.step l = .ok s') :
    ∃ st p, s' = operator st p := by
  cases s with
  | operand stack => exact readOperand_endsOperand hl h
  | argument name callee stack =>
    cases l with
    | openParen => cases hl
    | _ => cases h
  | operator stack p =>
    cases l with
    | number | name => exact readOperand_endsOperand hl h
    | closeParen =>
      simp only [step, readOperator] at h
      split at h
      · cases h; exact ⟨_, _, rfl⟩
      · cases h; exact ⟨_, _, rfl⟩
      · cases h
    | plus | minus | star | slash | caret | openParen => cases hl

/-- The star's own step, and then that of the factor's first token. -/
theorem reads_star (hk : k.startsOperand = true) (p : Expression) :
    Reads (operator stack p) (.star :: k :: rs) s' ↔ Reads (operator stack p) (k :: rs) s' := by
  have hstar : (operator stack p).step .star =
      .ok (operand (.product .mul (closeProduct stack p).2 :: (closeProduct stack p).1)) := rfl
  have hfactor := readOperator_operand stack p hk
  constructor
  · intro h
    cases h with
    | cons h1 h =>
      rw [hstar] at h1
      cases h1
      cases h with
      | cons h2 h => exact .cons (hfactor.trans h2) h
  · intro h
    cases h with
    | cons h1 h => exact .cons hstar (.cons (hfactor.symm.trans h1) h)

/-- Between an operand and a factor a star changes nothing of a reading. -/
theorem reads_insert_star (hl : l.endsOperand = true) (hk : k.startsOperand = true) :
    Reads s (ls ++ l :: .star :: k :: rs) s' ↔ Reads s (ls ++ l :: k :: rs) s' := by
  constructor
  · intro h
    obtain ⟨s1, h1, h2⟩ := h.split
    cases h2 with
    | cons hstep h2 =>
      obtain ⟨st, p, rfl⟩ := step_endsOperand hl hstep
      exact h1.trans (.cons hstep ((reads_star hk p).1 h2))
  · intro h
    obtain ⟨s1, h1, h2⟩ := h.split
    cases h2 with
    | cons hstep h2 =>
      obtain ⟨st, p, rfl⟩ := step_endsOperand hl hstep
      exact h1.trans (.cons hstep ((reads_star hk p).2 h2))

/-- Two neighbours in a list, and the list with something put between them. -/
theorem insertIdx_between {us : List Token} {i : Nat} (hl : us[i]? = some l)
    (hk : us[i + 1]? = some k) (x : Token) :
    ∃ ls rs, us = ls ++ l :: k :: rs ∧ us.insertIdx (i + 1) x = ls ++ l :: x :: k :: rs := by
  induction us generalizing i with
  | nil => cases hl
  | cons u us ih =>
    cases i with
    | zero =>
      cases hl
      cases us with
      | nil => cases hk
      | cons u' us => cases hk; exact ⟨[], us, rfl, rfl⟩
    | succ i =>
      obtain ⟨ls, rs, hus, hx⟩ := ih hl hk
      exact ⟨u :: ls, rs, by rw [hus]; rfl, by rw [List.insertIdx_succ_cons, hx]; rfl⟩

/-- Where an operand is followed by a factor, the tokens with a star between them are an
expression exactly when those without it are, and then the same one. -/
theorem ofTokens_insert_star (ending ending' : Nat) (ts us : List PlacedToken) (i : Nat)
    (l k : Token) (hl : (ts.map PlacedToken.token)[i]? = some l) (hends : l.endsOperand = true)
    (hk : (ts.map PlacedToken.token)[i + 1]? = some k) (hstarts : k.startsOperand = true)
    (hus : us.map PlacedToken.token = (ts.map PlacedToken.token).insertIdx (i + 1) .star)
    (t : Expression) :
    Expression.ofTokens ending ts = .ok t ↔ Expression.ofTokens ending' us = .ok t := by
  obtain ⟨ls, rs, hts, hstar⟩ := insertIdx_between hl hk .star
  rw [ofTokens_eq_ok, ofTokens_eq_ok, hus, hstar, hts]
  simp only [reads_insert_star hends hstarts]

/-- Behind an exponent below a sign, `-2^3x` is read as `-2^3*x`. -/
theorem ofTokens_insert_star_power :
    Expression.ofTokens 6 [⟨.minus, 0⟩, ⟨.number 2.0, 1⟩, ⟨.caret, 2⟩, ⟨.number 3.0, 3⟩, ⟨.star, 4⟩,
        ⟨.name "x", 5⟩] =
      .ok (.binary .mul (.neg (.binary .pow (.number 2.0) (.number 3.0))) .var) :=
  (ofTokens_insert_star 5 6
    [⟨.minus, 0⟩, ⟨.number 2.0, 1⟩, ⟨.caret, 2⟩, ⟨.number 3.0, 3⟩, ⟨.name "x", 4⟩] _ 3
    (.number 3.0) (.name "x") rfl rfl rfl rfl rfl _).1 rfl

end Quadrature
