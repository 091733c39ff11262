import Quadrature.Expression.Formula
import Quadrature.Proofs.Expression.Lexing
import Quadrature.Proofs.Expression.Parsing

/-!
# Where a text is refused

Tokens are viable when more tokens can make an expression of them. The reader gets
through viable tokens and stops at the first token that no expression goes on with, so
the position of an error is the first point of no return.
-/

namespace Quadrature

open ParseState

def Viable (ts : List PlacedToken) : Prop :=
  ∃ us ending t, Expression.ofTokens ending (ts ++ us) = .ok t

/-- The viable tokens are the ones that can be read. -/
theorem viable_iff_reads {ts : List PlacedToken} :
    Viable ts ↔ ∃ s, Reads start (ts.map PlacedToken.token) s := by
  constructor
  · rintro ⟨us, ending, t, h⟩
    obtain ⟨s, hr, -⟩ := ofTokens_eq_ok.1 h
    rw [List.map_append] at hr
    obtain ⟨s', hr', -⟩ := hr.split
    exact ⟨s', hr'⟩
  · rintro ⟨s, hr⟩
    obtain ⟨us, t, hD⟩ := (Consistent.ofStart hr).completion
    refine ⟨us.map fun k => ⟨k, 0⟩, 0, t, Derives.ofTokens ?_⟩
    have hus : (us.map fun k => (⟨k, 0⟩ : PlacedToken)).map PlacedToken.token = us := by
      rw [List.map_map]
      exact List.map_id us
    rw [List.map_append, hus]
    exact hD

theorem Viable.nil : Viable [] := viable_iff_reads.2 ⟨start, .nil start⟩

/-- After a reading the tokens stay viable just as long as the next one is accepted. -/
theorem Reads.not_viable {ts : List PlacedToken} {k : PlacedToken} {s : ParseState} {f : Fault}
    (h : Reads start (ts.map PlacedToken.token) s) (hs : s.step k.token = .error f) :
    ¬ Viable (ts ++ [k]) := by
  intro hv
  obtain ⟨s', hr⟩ := viable_iff_reads.1 hv
  rw [List.map_append] at hr
  obtain ⟨s1, hr1, hr2⟩ := hr.split
  cases hr2 with
  | cons hs' _ =>
    rw [← h.unique hr1, hs] at hs'
    cases hs'

/-- An error comes from the first token that is not accepted, or from the end. -/
theorem run_eq_error {ending : Nat} {s : ParseState} {ts : List PlacedToken} {e : SyntaxError}
    (h : run ending s ts = .error e) :
    (∃ k s' f, ∃ hk : k < ts.length, Reads s ((ts.take k).map PlacedToken.token) s' ∧
        s'.step ts[k].token = .error f ∧ e = ⟨f, ts[k].position⟩) ∨
      ∃ s' f, Reads s (ts.map PlacedToken.token) s' ∧ s'.finish = .error f ∧ e = ⟨f, ending⟩ := by
  induction ts generalizing s with
  | nil =>
    rw [run] at h
    cases hf : s.finish with
    | ok t => rw [hf] at h; cases h
    | error f =>
      rw [hf] at h
      cases h
      exact .inr ⟨s, f, .nil s, hf, rfl⟩
  | cons t ts ih =>
    rw [run] at h
    cases hs : s.step t.token with
    | error f =>
      rw [hs] at h
      cases h
      exact .inl ⟨0, s, f, Nat.succ_pos _, .nil s, hs, rfl⟩
    | ok s1 =>
      rw [hs] at h
      rcases ih h with ⟨k, s', f, hk, hr, hs', he⟩ | ⟨s', f, hr, hf, he⟩
      · exact .inl ⟨k + 1, s', f, Nat.succ_lt_succ hk, .cons hs hr, hs', he⟩
      · exact .inr ⟨s', f, .cons hs hr, hf, he⟩

/-- Where the tokens `ts` are no expression: at the first token that makes them unviable, or
at the end of the text when they are viable to the last. -/
theorem ofTokens_error {ending : Nat} {ts : List PlacedToken} {e : SyntaxError}
    (hts : ts = [] → ending = 0) (h : Expression.ofTokens ending ts = .error e) :
    (∃ k, ∃ hk : k < ts.length, e.position = ts[k].position ∧ Viable (ts.take k) ∧
        ¬ Viable (ts.take (k + 1))) ∨
      (Viable ts ∧ e.position = ending) := by
  unfold Expression.ofTokens at h
  by_cases hempty : ts = []
  · subst hempty
    cases h
    exact .inr ⟨.nil, (hts rfl).symm⟩
  · rw [if_neg (by simpa using hempty)] at h
    rcases run_eq_error h with ⟨k, s, f, hk, hr, hs, rfl⟩ | ⟨s, f, hr, -, rfl⟩
    · left
      refine ⟨k, hk, rfl, viable_iff_reads.2 ⟨s, hr⟩, ?_⟩
      rw [List.take_succ_eq_append_getElem hk]
      exact hr.not_viable hs
    · exact .inr ⟨viable_iff_reads.2 ⟨s, hr⟩, rfl⟩

/-- Only the empty text has no tokens. -/
theorem eq_nil_of_tokens {cs : List Char} (h : tokens cs = .ok []) : cs = [] := by
  obtain ⟨ls, hC⟩ := tokensFrom_eq_ok.1 h
  cases hC
  rfl

/-- A text with tokens that is no expression is refused at the first point of no return,
which lies within the text or at its end. -/
theorem ofFolded_error_position {cs : List Char} {ts : List PlacedToken} {e : SyntaxError}
    (hts : tokens cs = .ok ts) (he : Expression.ofFolded cs = .error e) :
    ((∃ k, ∃ hk : k < ts.length, e.position = ts[k].position ∧ Viable (ts.take k) ∧
          ¬ Viable (ts.take (k + 1))) ∨
        (Viable ts ∧ e.position = cs.length)) ∧
      e.position ≤ cs.length ∧
      ∀ [Elementary Float] (probes : List Float) (source : String),
        Text.foldChars source.toList = cs →
          Formula.compileAt probes source = .error (.malformed e) := by
  have hempty : ts = [] → cs.length = 0 := by
    rintro rfl
    rw [eq_nil_of_tokens hts]
    rfl
  have hpos := ofTokens_error hempty ((ofFolded_eq hts).symm.trans he)
  refine ⟨hpos, ?_, ?_⟩
  · rcases hpos with ⟨k, hk, hpos, -⟩ | ⟨-, hpos⟩
    · obtain ⟨ls, hC⟩ := tokensFrom_eq_ok.1 hts
      have hlt := hC.tiles.position_lt hk
      omega
    · omega
  · intro _ probes source hsource
    rw [Formula.compileAt, hsource, he]
    rfl

theorem ofFolded_error_position_closeParen :
    tokens ['x', ')'] = .ok [⟨.name "x", 0⟩, ⟨.closeParen, 1⟩] ∧
      Expression.ofFolded ['x', ')'] = .error ⟨.unexpectedToken .closeParen, 1⟩ ∧
      Viable [⟨.name "x", 0⟩] ∧ ¬ Viable [⟨.name "x", 0⟩, ⟨.closeParen, 1⟩] := by
  have hts : tokens ['x', ')'] = .ok [⟨.name "x", 0⟩, ⟨.closeParen, 1⟩] := by
    simp [tokens, tokensFrom, Token.first, Token.firstName, Except.map]
  have he : Expression.ofFolded ['x', ')'] = .error ⟨.unexpectedToken .closeParen, 1⟩ := by
    rw [ofFolded_eq hts]
    rfl
  refine ⟨hts, he, ?_⟩
  rcases (ofFolded_error_position hts he).1 with ⟨k, hk, hpos, hv, hn⟩ | ⟨-, hend⟩
  · cases k with
    | zero => cases hpos
    | succ k =>
      have hk : k + 1 < 2 := hk
      obtain rfl : k = 0 := by omega
      exact ⟨hv, hn⟩
  · cases hend

end Quadrature
