import Quadrature.Proofs.Expression.Reading

/-!
# Open constructs

`Awaits c stack ts` says what a stack means: the tokens `ts` open its constructs
one inside the other, and next comes a construct of category `c`, the widest that
may begin there. `Consistent s ts` says it of a state. Each token keeps it
(`Consistent.step`), so the tokens of a finished reading have a derivation
(`Consistent.finish`), and those of an unfinished one can be continued to tokens
that have one (`Consistent.completion`).
-/

namespace Quadrature

open ParseState

open Token in
inductive Awaits : Category → Stack → List Token → Prop where
  | start : Awaits .sum [] []
  | group {c : Category} {st : Stack} {ts : List Token} : Awaits c st ts →
      Awaits .sum (.group none :: st) (ts ++ [openParen])
  | call {c : Category} {st : Stack} {ts : List Token} {s : String} {f : Callee} :
      Awaits c st ts → Meaning.ofName? s = some (.callee f) →
      Awaits .sum (.group (some f) :: st) (ts ++ [name s, openParen])
  | sum {st : Stack} {ts ls : List Token} {l : Expression} {op : Operator} :
      op.precedence = 1 → Awaits .sum st ts → Derives .sum ls l →
      Awaits .product (.sum op l :: st) (ts ++ (ls ++ [op.token]))
  | product {c : Category} {st : Stack} {ts ls : List Token} {l : Expression} {op : Operator} :
      op.precedence = 2 → 3 ≤ c.rank → Awaits c st ts → Derives .product ls l →
      Awaits .signed (.product op l :: st) (ts ++ (ls ++ [op.token]))
  | juxtaposed {c : Category} {st : Stack} {ts ls : List Token} {l : Expression} :
      3 ≤ c.rank → Awaits c st ts → Derives .product ls l →
      Awaits .power (.product .mul l :: st) (ts ++ ls)
  | positive {c : Category} {st : Stack} {ts : List Token} : 2 ≤ c.rank → Awaits c st ts →
      Awaits .signed st (ts ++ [plus])
  | negative {c : Category} {st : Stack} {ts : List Token} : 2 ≤ c.rank → Awaits c st ts →
      Awaits .signed (.negation :: st) (ts ++ [minus])
  | power {c : Category} {st : Stack} {ts bs : List Token} {b : Expression} :
      Awaits c st ts → Derives .primary bs b →
      Awaits .signed (.power b :: st) (ts ++ (bs ++ [caret]))

namespace Awaits

variable {c d : Category} {st : Stack} {ts us : List Token} {t : Expression}

theorem rank_pos (h : Awaits c st ts) : 1 ≤ c.rank := by
  cases h <;> decide

/-- Closing up to the product: the tokens of a signed construct and of what it ends
are cut off. -/
theorem closeProduct (h : Awaits c st ts) (hd : Derives d us t) (h2 : d.rank ≤ 2)
    (hc : d.rank ≤ c.rank) :
    ∃ c' ts' ls, 3 ≤ c'.rank ∧ Awaits c' (closeProduct st t).1 ts' ∧
      Derives .product ls (Quadrature.closeProduct st t).2 ∧ ts ++ us = ts' ++ ls := by
  induction h generalizing d us t with
  | start => exact ⟨_, _, us, by decide, .start, hd.weaken (Nat.le_succ_of_le h2), rfl⟩
  | group h _ => exact ⟨_, _, us, by decide, .group h, hd.weaken (Nat.le_succ_of_le h2), rfl⟩
  | call h hs _ => exact ⟨_, _, us, by decide, .call h hs, hd.weaken (Nat.le_succ_of_le h2), rfl⟩
  | sum ho h hl _ =>
    exact ⟨_, _, us, by decide, .sum ho h hl, hd.weaken (Nat.le_succ_of_le h2), rfl⟩
  | product ho h3 h hl _ =>
    exact ⟨_, _, _, h3, h, .multiplicative ho hl (hd.weaken h2), by simp⟩
  | juxtaposed h3 h hl _ =>
    obtain ⟨k, vs, rfl, hk⟩ := hd.startsOperand hc
    exact ⟨_, _, _, h3, h, .juxtaposed hl hk (hd.weaken hc), by simp⟩
  | positive hp h ih =>
    have hs : Derives .signed us t := hd.weaken h2
    obtain ⟨c', ts', ls, h3, hA, hD, he⟩ := ih hs.positive (by decide) hp
    exact ⟨c', ts', ls, h3, hA, hD, by simpa using he⟩
  | negative hp h ih =>
    have hs : Derives .signed us t := hd.weaken h2
    obtain ⟨c', ts', ls, h3, hA, hD, he⟩ := ih hs.negative (by decide) hp
    exact ⟨c', ts', ls, h3, hA, hD, by simpa using he⟩
  | power h hb ih =>
    obtain ⟨c', ts', ls, h3, hA, hD, he⟩ :=
      ih (hb.powerOf (hd.weaken h2)) (by decide) h.rank_pos
    exact ⟨c', ts', ls, h3, hA, hD, by simpa using he⟩

theorem closeSum (h : Awaits c st ts) (hd : Derives d us t) (h2 : d.rank ≤ 2)
    (hc : d.rank ≤ c.rank) :
    ∃ ts' ls, Awaits .sum (closeSum st t).1 ts' ∧
      Derives .sum ls (Quadrature.closeSum st t).2 ∧ ts ++ us = ts' ++ ls := by
  obtain ⟨c', ts', ls, h3, hA, hD, he⟩ := h.closeProduct hd h2 hc
  rw [Quadrature.closeSum]
  generalize Quadrature.closeProduct st t = r at hA hD ⊢
  obtain ⟨st', t'⟩ := r
  cases hA with
  | start => exact ⟨_, ls, .start, hD.term, he⟩
  | group h => exact ⟨_, ls, .group h, hD.term, he⟩
  | call h hs => exact ⟨_, ls, .call h hs, hD.term, he⟩
  | sum ho h hl => exact ⟨_, _, h, .additive ho hl hD, by simpa using he⟩
  | product | juxtaposed | positive | negative | power => simp [Category.rank] at h3

/-- The constructs on the stack can be completed once a construct is read that may
begin there. -/
theorem completion (h : Awaits c st ts) (hd : Derives d us t) (hc : d.rank ≤ c.rank) :
    ∃ vs t', Derives .sum (ts ++ us ++ vs) t' := by
  induction h generalizing d us t with
  | start => exact ⟨[], t, by simpa using hd.weaken hc⟩
  | group h ih =>
    obtain ⟨vs, t', hD⟩ := ih (hd.weaken hc).group (Nat.zero_le _)
    exact ⟨.closeParen :: vs, t', by simpa using hD⟩
  | @call c st ts s f h hs ih =>
    obtain ⟨vs, t', hD⟩ := ih (.callee hs (hd.weaken hc)) (Nat.zero_le _)
    exact ⟨.closeParen :: vs, t', by simpa using hD⟩
  | sum ho h hl ih =>
    obtain ⟨vs, t', hD⟩ := ih (.additive ho hl (hd.weaken hc)) (by decide)
    exact ⟨vs, t', by simpa using hD⟩
  | product ho h3 h hl ih =>
    obtain ⟨vs, t', hD⟩ := ih (.multiplicative ho hl (hd.weaken hc)) h3
    exact ⟨vs, t', by simpa using hD⟩
  | juxtaposed h3 h hl ih =>
    obtain ⟨k, vs, rfl, hk⟩ := hd.startsOperand hc
    obtain ⟨vs, t', hD⟩ := ih (.juxtaposed hl hk (hd.weaken hc)) h3
    exact ⟨vs, t', by simpa using hD⟩
  | positive hp h ih =>
    have hs : Derives .signed us t := hd.weaken hc
    obtain ⟨vs, t', hD⟩ := ih hs.positive hp
    exact ⟨vs, t', by simpa using hD⟩
  | negative hp h ih =>
    have hs : Derives .signed us t := hd.weaken hc
    obtain ⟨vs, t', hD⟩ := ih hs.negative hp
    exact ⟨vs, t', by simpa using hD⟩
  | power h hb ih =>
    obtain ⟨vs, t', hD⟩ := ih (hb.powerOf (hd.weaken hc)) h.rank_pos
    exact ⟨vs, t', by simpa using hD⟩

end Awaits

/-- The tokens `ts` lead to the state. -/
def Consistent : ParseState → List Token → Prop
  | operand st, ts => ∃ c, 2 ≤ c.rank ∧ Awaits c st ts
  | argument s f st, ts =>
    ∃ c ts', Awaits c st ts' ∧ Meaning.ofName? s = some (.callee f) ∧ ts = ts' ++ [.name s]
  | operator st p, ts => ∃ c ts' us, Awaits c st ts' ∧ Derives .primary us p ∧ ts = ts' ++ us

namespace Consistent

variable {c : Category} {st : Stack} {s s' : ParseState} {ts us : List Token} {k : Token}
  {t : Expression}

theorem readOperand (h : Awaits c st ts) (hk : k.startsOperand = true ∨ 2 ≤ c.rank)
    (hs : ParseState.readOperand st k = .ok s) : Consistent s (ts ++ [k]) := by
  have sign (h0 : k.startsOperand = false) : 2 ≤ c.rank := hk.resolve_left (by simp [h0])
  cases k with
  | number v =>
    cases hs
    exact ⟨c, ts, _, h, .number v, rfl⟩
  | name s =>
    rw [ParseState.readOperand] at hs
    split at hs
    · next hm =>
      cases hs
      exact ⟨c, ts, _, h, Meaning.ofName?_eq_var.1 hm ▸ .var, rfl⟩
    · next d hm =>
      cases hs
      exact ⟨c, ts, _, h, Meaning.ofName?_eq_const.1 hm ▸ .const d, rfl⟩
    · next f hm =>
      cases hs
      exact ⟨c, ts, h, hm, rfl⟩
    · cases hs
  | openParen => cases hs; exact ⟨_, by decide, h.group⟩
  | minus => cases hs; exact ⟨_, by decide, h.negative (sign rfl)⟩
  | plus => cases hs; exact ⟨_, by decide, h.positive (sign rfl)⟩
  | star | slash | caret | closeParen => cases hs

/-- The token of a sum's operator, after all that it closes. -/
theorem readSum {p : Expression} {op : Operator} (ho : op.precedence = 1) (h : Awaits c st ts)
    (hp : Derives .primary us p) :
    Consistent (operand (.sum op (closeSum st p).2 :: (closeSum st p).1)) (ts ++ us ++ [op.token]) := by
  obtain ⟨ts', ls, hA, hD, he⟩ := h.closeSum hp (by decide) (Nat.zero_le _)
  refine ⟨.product, by decide, ?_⟩
  rw [he, List.append_assoc]
  exact .sum ho hA hD

theorem readProduct {p : Expression} {op : Operator} (ho : op.precedence = 2)
    (h : Awaits c st ts) (hp : Derives .primary us p) :
    Consistent (operand (.product op (closeProduct st p).2 :: (closeProduct st p).1))
      (ts ++ us ++ [op.token]) := by
  obtain ⟨c', ts', ls, h3, hA, hD, he⟩ := h.closeProduct hp (by decide) (Nat.zero_le _)
  refine ⟨.signed, by decide, ?_⟩
  rw [he, List.append_assoc]
  exact .product ho h3 hA hD

theorem readOperator {p : Expression} (h : Awaits c st ts) (hp : Derives .primary us p)
    (hs : ParseState.readOperator st p k = .ok s) : Consistent s (ts ++ us ++ [k]) := by
  cases k with
  | plus => cases hs; exact readSum rfl h hp
  | minus => cases hs; exact readSum rfl h hp
  | star => cases hs; exact readProduct rfl h hp
  | slash => cases hs; exact readProduct rfl h hp
  | caret =>
    cases hs
    refine ⟨.signed, by decide, ?_⟩
    rw [List.append_assoc]
    exact .power h hp
  | closeParen =>
    obtain ⟨ts', ls, hA, hD, he⟩ := h.closeSum hp (by decide) (Nat.zero_le _)
    rw [he]
    rw [ParseState.readOperator] at hs
    generalize closeSum st p = r at hA hD hs
    obtain ⟨st', t'⟩ := r
    cases hA with
    | start => cases hs
    | group h =>
      cases hs
      exact ⟨_, _, _, h, hD.group, by simp⟩
    | call h hm =>
      cases hs
      exact ⟨_, _, _, h, .callee hm hD, by simp⟩
  | number | name | openParen =>
    obtain ⟨c', ts', ls, h3, hA, hD, he⟩ := h.closeProduct hp (by decide) (Nat.zero_le _)
    rw [he]
    exact readOperand (.juxtaposed h3 hA hD) (.inl rfl) hs

theorem step (h : Consistent s ts) (hs : s.step k = .ok s') : Consistent s' (ts ++ [k]) := by
  cases s with
  | operand st =>
    obtain ⟨c, hc, hA⟩ := h
    exact readOperand hA (.inr hc) hs
  | argument n f st =>
    obtain ⟨c, ts', hA, hm, rfl⟩ := h
    cases k with
    | openParen =>
      cases hs
      refine ⟨.sum, by decide, ?_⟩
      rw [List.append_assoc]
      exact .call hA hm
    | _ => cases hs
  | operator st p =>
    obtain ⟨c, ts', us, hA, hp, rfl⟩ := h
    exact readOperator hA hp hs

theorem reads (h : Consistent s ts) (hr : Reads s us s') : Consistent s' (ts ++ us) := by
  induction hr generalizing ts with
  | nil => simpa using h
  | cons hs _ ih => simpa using ih (h.step hs)

theorem ofStart (h : Reads start ts s) : Consistent s ts := by
  have h0 : Consistent start [] := ⟨.sum, by decide, .start⟩
  exact h0.reads h

theorem finish (h : Consistent s ts) (hs : s.finish = .ok t) : Derives .sum ts t := by
  cases s with
  | operand | argument => cases hs
  | operator st p =>
    obtain ⟨c, ts', us, hA, hp, rfl⟩ := h
    obtain ⟨ts'', ls, hA', hD, he⟩ := hA.closeSum hp (by decide) (Nat.zero_le _)
    rw [ParseState.finish] at hs
    generalize closeSum st p = r at hA' hD hs
    obtain ⟨st', t'⟩ := r
    cases hA' with
    | start =>
      cases hs
      rw [he]
      exact hD
    | group | call => cases hs

/-- The tokens of a state can be continued to an expression. -/
theorem completion (h : Consistent s ts) : ∃ us t, Derives .sum (ts ++ us) t := by
  -- a number stands for whatever operand is missing
  have zero : Derives .primary [.number 0.0] (.number 0.0) := .number 0.0
  cases s with
  | operand st =>
    obtain ⟨c, hc, hA⟩ := h
    obtain ⟨vs, t, hD⟩ := hA.completion zero (Nat.zero_le _)
    exact ⟨_, t, by simpa using hD⟩
  | argument n f st =>
    obtain ⟨c, ts', hA, hm, rfl⟩ := h
    have call := Derives.callee hm (zero.weaken (Nat.zero_le Category.sum.rank))
    obtain ⟨vs, t, hD⟩ := hA.completion call (Nat.zero_le _)
    exact ⟨_, t, by simpa using hD⟩
  | operator st p =>
    obtain ⟨c, ts', us, hA, hp, rfl⟩ := h
    obtain ⟨vs, t, hD⟩ := hA.completion hp (Nat.zero_le _)
    exact ⟨vs, t, hD⟩

end Consistent

end Quadrature
