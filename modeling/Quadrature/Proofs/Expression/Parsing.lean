import Quadrature.Proofs.Expression.Reading
import Quadrature.Proofs.Expression.Stack

/-!
# The reader and the grammar

The reader accepts exactly the sums of the grammar. One way round, the tokens of a
derivation are read on an empty stack (`Derives.reads`); the other way round, a stack
keeps what its tokens derive (`Consistent`). Since the reader gives one answer, the
grammar is unambiguous although a juxtaposed factor and a sign compete for the same
tokens.
-/

namespace Quadrature

open ParseState

variable {ending : Nat} {ts : List PlacedToken} {us : List Token} {t t' : Expression}

namespace Derives

theorem readsToEnd (h : Derives .sum us t) : ∃ s, Reads start us s ∧ s.finish = .ok t := by
  obtain ⟨s, p, hr, hc⟩ := h.reads [] trivial
  have hc : closeSum s p = ([], t) := hc
  refine ⟨operator s p, hr, ?_⟩
  simp only [finish, hc]

theorem ofTokens (h : Derives .sum (ts.map PlacedToken.token) t) :
    Expression.ofTokens ending ts = .ok t :=
  ofTokens_eq_ok.2 h.readsToEnd

theorem unique (h : Derives .sum us t) (h' : Derives .sum us t') : t = t' := by
  obtain ⟨s, hr, hf⟩ := h.readsToEnd
  obtain ⟨s', hr', hf'⟩ := h'.readsToEnd
  rw [hr.unique hr', hf'] at hf
  cases hf
  rfl

end Derives

theorem derives_of_ofTokens (h : Expression.ofTokens ending ts = .ok t) :
    Derives .sum (ts.map PlacedToken.token) t := by
  obtain ⟨s, hr, hf⟩ := ofTokens_eq_ok.1 h
  exact (Consistent.ofStart hr).finish hf

theorem ofFolded_eq {cs : List Char} {ts : List PlacedToken} (h : tokens cs = .ok ts) :
    Expression.ofFolded cs = Expression.ofTokens cs.length ts := by
  rw [Expression.ofFolded, h]
  rfl

/-- Tokens are read as `t` exactly when they derive `t`, no tokens derive two expressions,
and tokens that derive none are refused. -/
theorem ofTokens_iff_derives (ending : Nat) (ts : List PlacedToken) :
    (∀ t, Expression.ofTokens ending ts = .ok t ↔ Derives .sum (ts.map PlacedToken.token) t) ∧
      (∀ t t', Derives .sum (ts.map PlacedToken.token) t →
        Derives .sum (ts.map PlacedToken.token) t' → t = t') ∧
      ((∀ t, ¬ Derives .sum (ts.map PlacedToken.token) t) →
        ∃ e : SyntaxError, Expression.ofTokens ending ts = .error e) := by
  refine ⟨fun t => ⟨derives_of_ofTokens, Derives.ofTokens⟩, fun t t' => Derives.unique, ?_⟩
  intro hn
  cases h : Expression.ofTokens ending ts with
  | error e => exact ⟨e, rfl⟩
  | ok t => exact absurd (derives_of_ofTokens h) (hn t)

end Quadrature
