import Quadrature.Proofs.Expression.Printing

/-!
# Nesting

Two counts tell the parts of a construct apart. Its parentheses are balanced, so that a pair
around it is not closed inside (`Balanced.depth_pos`), and every number and name in its tokens
stands for leaves of its expression (`Derives.leaves`), so that an operand cannot end earlier or
later than it does (`EndsOperand.append_unique`).
-/

namespace Quadrature

variable {c : Category} {j k : Token} {ts us vs xs : List Token} {t : Expression}

/-! ## Parentheses -/

theorem Operator.token_ne_openParen (op : Operator) : op.token ≠ .openParen := by
  cases op <;> decide

theorem Operator.token_ne_closeParen (op : Operator) : op.token ≠ .closeParen := by
  cases op <;> decide

/-- How many parentheses are opened and not closed. -/
def depth (ts : List Token) : ℤ :=
  ts.count .openParen - ts.count .closeParen

@[simp]
theorem depth_append (ts us : List Token) : depth (ts ++ us) = depth ts + depth us := by
  simp only [depth, List.count_append]
  omega

@[simp]
theorem depth_open (ts : List Token) : depth (.openParen :: ts) = depth ts + 1 := by
  simp [depth]
  omega

theorem depth_single (ho : k ≠ .openParen) (hc : k ≠ .closeParen) : depth [k] = 0 := by
  simp [depth, ho, hc]

/-- Every parenthesis is closed, and none is closed before it is opened. -/
structure Balanced (ts : List Token) : Prop where
  depth_eq : depth ts = 0
  nonneg : ∀ us vs, ts = us ++ vs → 0 ≤ depth us

namespace Balanced

theorem single (ho : k ≠ .openParen) (hc : k ≠ .closeParen) : Balanced [k] := by
  refine ⟨depth_single ho hc, fun us vs h => ?_⟩
  rcases List.append_eq_singleton_iff.1 h.symm with ⟨rfl, -⟩ | ⟨rfl, -⟩
  · exact le_rfl
  · exact (depth_single ho hc).ge

theorem append (ht : Balanced ts) (hu : Balanced us) : Balanced (ts ++ us) := by
  refine ⟨by rw [depth_append, ht.depth_eq, hu.depth_eq, add_zero], fun vs ws h => ?_⟩
  rcases List.append_eq_append_iff.1 h with ⟨xs, rfl, hxs⟩ | ⟨xs, hxs, -⟩
  · rw [depth_append, ht.depth_eq, zero_add]
    exact hu.nonneg xs ws hxs
  · exact ht.nonneg vs xs hxs

theorem cons (ho : k ≠ .openParen) (hc : k ≠ .closeParen) (h : Balanced ts) :
    Balanced (k :: ts) :=
  (single ho hc).append h

/-- What lies between a pair of parentheses up to some place in it. -/
theorem split (hsplit : .openParen :: xs ++ [.closeParen] = us ++ vs) (hus : us ≠ [])
    (hvs : vs ≠ []) : ∃ ws ys, us = .openParen :: ws ∧ xs = ws ++ ys := by
  obtain ⟨u, ws, rfl⟩ := List.exists_cons_of_ne_nil hus
  obtain ⟨rfl, h⟩ := List.cons.inj hsplit
  rcases List.append_eq_append_iff.1 h with ⟨ys, rfl, hys⟩ | ⟨ys, hys, -⟩
  · rcases List.append_eq_singleton_iff.1 hys.symm with ⟨rfl, -⟩ | ⟨-, hnil⟩
    · exact ⟨_, [], rfl, by simp⟩
    · exact absurd hnil hvs
  · exact ⟨ws, ys, rfl, hys⟩

/-- Inside a pair of parentheses around a balanced list it is open. -/
theorem depth_pos (h : Balanced xs) (hsplit : .openParen :: xs ++ [.closeParen] = us ++ vs)
    (hus : us ≠ []) (hvs : vs ≠ []) : 0 < depth us := by
  obtain ⟨ws, ys, rfl, hxs⟩ := split hsplit hus hvs
  have hnonneg := h.nonneg ws ys hxs
  rw [depth_open]
  omega

/-- No balanced list begins with such a pair and ends inside it. -/
theorem not_split (h : Balanced xs) (hus : Balanced us) (hne : us ≠ []) :
    .openParen :: xs ++ [.closeParen] ≠ us ++ k :: vs := by
  intro hsplit
  have hpos := h.depth_pos hsplit hne (List.cons_ne_nil k vs)
  rw [hus.depth_eq] at hpos
  exact lt_irrefl 0 hpos

theorem group (h : Balanced ts) : Balanced (.openParen :: ts ++ [.closeParen]) := by
  have hdepth : depth (.openParen :: ts ++ [.closeParen]) = 0 := by
    rw [depth_append, depth_open, h.depth_eq]
    rfl
  refine ⟨hdepth, fun us vs hsplit => ?_⟩
  by_cases hus : us = []
  · exact hus ▸ le_rfl
  by_cases hvs : vs = []
  · rw [hvs, List.append_nil] at hsplit
    exact hsplit ▸ hdepth.ge
  · exact (h.depth_pos hsplit hus hvs).le

end Balanced

theorem Derives.balanced (h : Derives c ts t) : Balanced ts := by
  induction h with
  | number | var | const => exact .single (by simp) (by simp)
  | call _ _ ih | reciprocal _ _ ih => exact .cons (by simp) (by simp) ih.group
  | group _ ih => exact ih.group
  | bare _ ih | unsigned _ ih | factor _ ih | term _ ih => exact ih
  | positive _ ih | negative _ ih => exact .cons (by simp) (by simp) ih
  | exponential _ _ ihl ihr | raised _ _ _ ihl ihr | times _ _ ihl ihr | divided _ _ ihl ihr
  | add _ _ ihl ihr | sub _ _ ihl ihr => exact ihl.append (ihr.cons (by simp) (by simp))
  | juxtaposed _ _ _ ihl ihr => exact ihl.append ihr

/-! ## Leaves -/

/-- A call counts as a leaf besides those of its argument. -/
def Expression.leaves : Expression → ℕ
  | number _ | var | const _ => 1
  | neg t => t.leaves
  | call _ t => t.leaves + 1
  | binary _ l r => l.leaves + r.leaves

/-- The leaves for which a token stands. A reciprocal stands for the number one and a call. -/
def Token.leaves : Token → ℕ
  | number _ => 1
  | name s => if s = "csc" ∨ s = "sec" ∨ s = "cot" then 2 else 1
  | _ => 0

def leaves (ts : List Token) : ℕ :=
  (ts.map Token.leaves).sum

@[simp]
theorem leaves_nil : leaves [] = 0 := rfl

@[simp]
theorem leaves_cons (k : Token) (ts : List Token) : leaves (k :: ts) = k.leaves + leaves ts :=
  List.sum_cons

@[simp]
theorem leaves_append (ts us : List Token) : leaves (ts ++ us) = leaves ts + leaves us := by
  rw [leaves, List.map_append, List.sum_append]
  rfl

theorem Token.leaves_name_pos (s : String) : 0 < (name s).leaves := by
  rw [Token.leaves]
  split <;> decide

theorem NamedFunction.leaves_of_mem {f : NamedFunction} {s : String} (h : s ∈ f.spellings) :
    (Token.name s).leaves = 1 := by
  revert s
  cases f <;> decide

theorem NamedFunction.leaves_of_mem_reciprocal {f : NamedFunction} {s : String}
    (h : s ∈ f.reciprocalSpellings) : (Token.name s).leaves = 2 := by
  revert s
  cases f <;> decide

@[simp]
theorem leaves_group (ts : List Token) :
    leaves (.openParen :: ts ++ [.closeParen]) = leaves ts := by
  simp [Token.leaves]

theorem Derives.leaves (h : Derives c ts t) : Quadrature.leaves ts = t.leaves := by
  induction h with
  | number | var => rfl
  | const c => cases c <;> rfl
  | @call s f ts t hs _ ih =>
    show Quadrature.leaves (.name s :: (.openParen :: ts ++ [.closeParen])) = t.leaves + 1
    rw [leaves_cons, leaves_group, f.leaves_of_mem hs, ih, Nat.add_comm]
  | @reciprocal s f ts t hs _ ih =>
    show Quadrature.leaves (.name s :: (.openParen :: ts ++ [.closeParen])) = 1 + (t.leaves + 1)
    rw [leaves_cons, leaves_group, f.leaves_of_mem_reciprocal hs, ih]
    omega
  | group _ ih => rw [leaves_group, ih]
  | bare _ ih | unsigned _ ih | factor _ ih | term _ ih => exact ih
  | positive _ ih | negative _ ih => simp [Expression.leaves, Token.leaves, ih]
  | exponential _ _ ihb ihe =>
    simp [Expression.leaves, Token.leaves, ihb, ihe, Nat.add_comm]
  | raised _ _ _ ihl ihr | times _ _ ihl ihr | divided _ _ ihl ihr | add _ _ ihl ihr
  | sub _ _ ihl ihr => simp [Expression.leaves, ihl, ihr, Token.leaves]
  | juxtaposed _ _ _ ihl ihr => rw [leaves_append, ihl, ihr, Expression.leaves]

/-- After the last leaf of an operand only parentheses are closed. -/
def EndsOperand (ts : List Token) : Prop :=
  ∃ us k n, ts = us ++ k :: List.replicate n .closeParen ∧ 0 < k.leaves

namespace EndsOperand

theorem single (h : 0 < k.leaves) : EndsOperand [k] := ⟨[], k, 0, rfl, h⟩

theorem ne_nil (h : EndsOperand ts) : ts ≠ [] := by
  obtain ⟨us, k, n, rfl, -⟩ := h
  simp

theorem append (us : List Token) (h : EndsOperand ts) : EndsOperand (us ++ ts) := by
  obtain ⟨vs, k, n, rfl, hk⟩ := h
  exact ⟨us ++ vs, k, n, by rw [List.append_assoc], hk⟩

theorem close (h : EndsOperand ts) : EndsOperand (ts ++ [.closeParen]) := by
  obtain ⟨us, k, n, rfl, hk⟩ := h
  exact ⟨us, k, n + 1, by rw [List.replicate_succ', List.append_assoc, List.cons_append], hk⟩

/-- What stands for no leaf at the end closes parentheses. -/
theorem eq_close (h : EndsOperand (us ++ j :: vs)) (hleaves : leaves (j :: vs) = 0) :
    j = .closeParen := by
  obtain ⟨ws, k, n, hsplit, hk⟩ := h
  have hlast : leaves (k :: List.replicate n .closeParen) ≠ 0 := by
    rw [leaves_cons]
    omega
  rcases List.append_eq_append_iff.1 hsplit with ⟨xs, -, hxs⟩ | ⟨xs, -, hxs⟩
  · rw [hxs, leaves_append] at hleaves
    exact absurd (Nat.add_eq_zero_iff.1 hleaves).2 hlast
  · cases xs with
    | nil =>
      rw [← List.nil_append (j :: vs), ← hxs] at hleaves
      exact absurd hleaves hlast
    | cons x xs =>
      have hmem : j ∈ List.replicate n Token.closeParen := by
        rw [(List.cons.inj hxs).2]
        simp
      exact List.eq_of_mem_replicate hmem

/-- Two operands with as many leaves at the beginning of one list are one operand. -/
theorem append_unique {ls ls' rs rs' : List Token} (hl : EndsOperand ls) (hl' : EndsOperand ls')
    (hleaves : leaves ls = leaves ls') (hj : j ≠ .closeParen) (hk : k ≠ .closeParen)
    (h : ls ++ j :: rs = ls' ++ k :: rs') : ls = ls' ∧ j = k ∧ rs = rs' := by
  rcases List.append_eq_append_iff.1 h with ⟨xs, rfl, hxs⟩ | ⟨xs, rfl, hxs⟩
  · cases xs with
    | nil =>
      obtain ⟨rfl, rfl⟩ := List.cons.inj hxs
      exact ⟨(List.append_nil _).symm, rfl, rfl⟩
    | cons x xs =>
      obtain ⟨rfl, -⟩ := List.cons.inj hxs
      rw [leaves_append, Nat.left_eq_add] at hleaves
      exact absurd (hl'.eq_close hleaves) hj
  · cases xs with
    | nil =>
      obtain ⟨rfl, rfl⟩ := List.cons.inj hxs
      exact ⟨List.append_nil _, rfl, rfl⟩
    | cons x xs =>
      obtain ⟨rfl, -⟩ := List.cons.inj hxs
      rw [leaves_append, Nat.add_eq_left] at hleaves
      exact absurd (hl.eq_close hleaves) hk

end EndsOperand

theorem Derives.endsOperand (h : Derives c ts t) : EndsOperand ts := by
  induction h with
  | number => exact .single Nat.one_pos
  | var => exact .single (Token.leaves_name_pos _)
  | const => exact .single (Token.leaves_name_pos _)
  | call _ _ ih | reciprocal _ _ ih => exact (ih.append [_, _]).close
  | group _ ih => exact (ih.append [_]).close
  | bare _ ih | unsigned _ ih | factor _ ih | term _ ih => exact ih
  | positive _ ih | negative _ ih => exact ih.append [_]
  | exponential _ _ _ ih | raised _ _ _ _ ih | times _ _ _ ih | divided _ _ _ ih | add _ _ _ ih
  | sub _ _ _ ih => exact (ih.append [_]).append _
  | juxtaposed _ _ _ _ ih => exact ih.append _

end Quadrature
