import Quadrature.Proofs.Expression.Grammar

/-!
# Readings

`Reads s ts s'` says that the reader goes from state `s` to state `s'` over the
tokens `ts`. What the reader does with the tokens of a construct follows from
their derivation (`Derives.reads`), whatever is open on the stack.
-/

namespace Quadrature

open ParseState

inductive Reads : ParseState → List Token → ParseState → Prop where
  | nil (s : ParseState) : Reads s [] s
  | cons {s s' s'' : ParseState} {k : Token} {ts : List Token} :
      s.step k = .ok s' → Reads s' ts s'' → Reads s (k :: ts) s''

namespace Reads

variable {s s' s'' : ParseState} {k : Token} {ts us : List Token}

theorem single (h : s.step k = .ok s') : Reads s [k] s' := .cons h (.nil s')

theorem trans (h : Reads s ts s') (h' : Reads s' us s'') : Reads s (ts ++ us) s'' := by
  induction h with
  | nil => exact h'
  | cons hs _ ih => exact .cons hs (ih h')

theorem snoc (h : Reads s ts s') (h' : s'.step k = .ok s'') : Reads s (ts ++ [k]) s'' :=
  h.trans (single h')

/-- The reader is in one state after given tokens. -/
theorem unique (h : Reads s ts s') (h' : Reads s ts s'') : s' = s'' := by
  induction h with
  | nil => cases h'; rfl
  | cons hs _ ih =>
    cases h' with
    | cons hs' h' =>
      rw [hs] at hs'
      cases hs'
      exact ih h'

/-- A reading passes through a state after every prefix. -/
theorem split (h : Reads s (ts ++ us) s'') : ∃ s', Reads s ts s' ∧ Reads s' us s'' := by
  induction ts generalizing s with
  | nil => exact ⟨s, .nil s, h⟩
  | cons k ts ih =>
    cases h with
    | cons hs h =>
      obtain ⟨s', h1, h2⟩ := ih h
      exact ⟨s', .cons hs h1, h2⟩

end Reads

theorem run_eq_ok (ending : Nat) {s : ParseState} {ts : List PlacedToken} {t : Expression} :
    run ending s ts = .ok t ↔
      ∃ s', Reads s (ts.map PlacedToken.token) s' ∧ s'.finish = .ok t := by
  induction ts generalizing s with
  | nil =>
    constructor
    · intro h
      refine ⟨s, .nil s, ?_⟩
      unfold run at h
      cases hf : s.finish with
      | error e => rw [hf] at h; cases h
      | ok t' => rw [hf] at h; cases h; rfl
    · rintro ⟨s', hr, hf⟩
      cases hr
      rw [run, hf]
      rfl
  | cons k ts ih =>
    rw [run]
    cases hs : s.step k.token with
    | error e =>
      constructor
      · intro h; cases h
      · rintro ⟨s', hr, -⟩
        cases hr with
        | cons hs' _ => rw [hs] at hs'; cases hs'
    | ok s1 =>
      simp only [ih]
      constructor
      · rintro ⟨s', hr, hf⟩
        exact ⟨s', .cons hs hr, hf⟩
      · rintro ⟨s', hr, hf⟩
        cases hr with
        | cons hs' hr =>
          rw [hs] at hs'
          cases hs'
          exact ⟨s', hr, hf⟩

/-- The empty list needs no case of its own: an operand is missing at its end. -/
theorem ofTokens_eq_ok {ending : Nat} {ts : List PlacedToken} {t : Expression} :
    Expression.ofTokens ending ts = .ok t ↔
      ∃ s, Reads start (ts.map PlacedToken.token) s ∧ s.finish = .ok t := by
  unfold Expression.ofTokens
  rw [← run_eq_ok ending]
  cases ts with
  | nil => simp [run, start, finish, Except.mapError]
  | cons k ts => rfl

/-! ## From derivations to readings -/

/-- Closes everything up to the construct of category `c` that ends with `t`. -/
def close : Category → Stack → Expression → Stack × Expression
  | .primary => Prod.mk
  | .power | .signed => closeSigned
  | .product => closeProduct
  | .sum => closeSum

/-- On the stack a construct of category `c` may begin: closing it leaves the frame
on top alone. -/
def Begins (c : Category) : Stack → Prop
  | [] | .group _ :: _ => True
  | .sum _ _ :: _ => c.rank ≤ 3
  | .product _ _ :: _ | .negation :: _ | .power _ :: _ => c.rank ≤ 2

theorem Begins.mono {c c' : Category} {stack : Stack} (h : Begins c stack)
    (hc : c'.rank ≤ c.rank) : Begins c' stack := by
  cases stack with
  | nil => trivial
  | cons f _ => cases f <;> first | trivial | exact Nat.le_trans hc h

theorem Begins.of_signed {c : Category} (stack : Stack) (hc : c.rank ≤ 2) : Begins c stack := by
  cases stack with
  | nil => trivial
  | cons f _ => cases f <;> first | trivial | (simp only [Begins]; omega)

theorem Begins.closeProduct {stack : Stack} (h : Begins .product stack) (t : Expression) :
    closeProduct stack t = (stack, t) := by
  cases stack with
  | nil => rfl
  | cons f _ =>
    cases f with
    | sum | group => rfl
    | product | negation | power => simp [Begins, Category.rank] at h

theorem Begins.closeSum {stack : Stack} (h : Begins .sum stack) (t : Expression) :
    closeSum stack t = (stack, t) := by
  cases stack with
  | nil => rfl
  | cons f _ =>
    cases f with
    | group => rfl
    | sum | product | negation | power => simp [Begins, Category.rank] at h

theorem close_product_congr {s s' : Stack} {t t' : Expression}
    (h : close .signed s t = close .signed s' t') : close .product s t = close .product s' t' := by
  simp only [close] at h ⊢
  rw [closeProduct, h, closeProduct]

theorem close_sum_congr {s s' : Stack} {t t' : Expression}
    (h : close .product s t = close .product s' t') : close .sum s t = close .sum s' t' := by
  simp only [close] at h ⊢
  rw [closeSum, h, closeSum]

/-- A juxtaposed factor is read as if a star stood before it. -/
theorem readOperator_operand (stack : Stack) (p : Expression) {k : Token}
    (hk : k.startsOperand = true) :
    (operator stack p).step k =
      (operand (.product .mul (closeProduct stack p).2 :: (closeProduct stack p).1)).step k := by
  cases k <;> first | rfl | cases hk

/-- What parentheses around `t` stand for, after a function's name or without one. -/
def grouped : Option Callee → Expression → Expression
  | none, t => t
  | some c, t => c.apply t

theorem Reads.closeParen {stack s : Stack} {g : Option Callee} {ts : List Token}
    {p t : Expression} (h : Reads (operand (.group g :: stack)) ts (operator s p))
    (hc : closeSum s p = (.group g :: stack, t)) :
    Reads (operand (.group g :: stack)) (ts ++ [.closeParen]) (operator stack (grouped g t)) := by
  refine h.snoc ?_
  simp only [step, readOperator, hc]
  cases g <;> rfl

theorem step_callee (stack : Stack) {s : String} {c : Callee}
    (h : Meaning.ofName? s = some (.callee c)) :
    (operand stack).step (.name s) = .ok (argument s c stack) := by
  simp only [step, readOperand, h]

theorem step_product {op : Operator} {s stack : Stack} {p l : Expression}
    (ho : op.precedence = 2) (hc : closeProduct s p = (stack, l)) :
    (operator s p).step op.token = .ok (operand (.product op l :: stack)) := by
  cases op with
  | mul | div => simp only [Operator.token, step, readOperator, hc]
  | add | sub | pow => simp [Operator.precedence] at ho

theorem step_sum {op : Operator} {s stack : Stack} {p l : Expression}
    (ho : op.precedence = 1) (hc : closeSum s p = (stack, l)) :
    (operator s p).step op.token = .ok (operand (.sum op l :: stack)) := by
  cases op with
  | add | sub => simp only [Operator.token, step, readOperator, hc]
  | mul | div | pow => simp [Operator.precedence] at ho

/-- Over the tokens `ts` the reader builds `t` as a construct of category `c`: the stack
is left as it was, up to what is closed with the construct. -/
def Builds (c : Category) (ts : List Token) (t : Expression) : Prop :=
  ∀ stack, Begins c stack →
    ∃ s p, Reads (operand stack) ts (operator s p) ∧ close c s p = close c stack t

namespace Builds

variable {ts bs es ls rs : List Token} {t b l r : Expression}

theorem call {s : String} {f : Callee} (hs : Meaning.ofName? s = some (.callee f))
    (h : Builds .sum ts t) :
    Builds .primary (.name s :: .openParen :: ts ++ [.closeParen]) (f.apply t) := by
  intro stack _
  obtain ⟨s', p, hr, hc⟩ := h (.group (some f) :: stack) trivial
  exact ⟨_, _, .cons (step_callee stack hs) (.cons rfl (hr.closeParen hc)), rfl⟩

theorem power (hb : Builds .primary bs b) (he : Builds .signed es t) :
    Builds .power (bs ++ .caret :: es) (powerOf b t) := by
  intro stack hbegins
  obtain ⟨s, p, hr, hc⟩ := hb _ (hbegins.mono (by decide))
  cases hc
  obtain ⟨s', p', hr', hc'⟩ := he _ (.of_signed (.power b :: stack) (by decide))
  exact ⟨s', p', hr.trans (.cons rfl hr'), hc'⟩

theorem product (op : Operator) (ho : op.precedence = 2) (hl : Builds .product ls l)
    (hr : Builds .signed rs r) : Builds .product (ls ++ op.token :: rs) (.binary op l r) := by
  intro stack hb
  obtain ⟨s, p, hls, hc⟩ := hl _ hb
  have hc : closeProduct s p = (stack, l) := hc.trans (hb.closeProduct l)
  obtain ⟨s', p', hrs, hc'⟩ := hr _ (.of_signed (.product op l :: stack) (by decide))
  refine ⟨s', p', hls.trans (.cons (step_product ho hc) hrs), ?_⟩
  exact (close_product_congr hc').trans (hb.closeProduct _).symm

theorem juxtaposed {k : Token} (hk : k.startsOperand = true) (hl : Builds .product ls l)
    (hr : Builds .power (k :: rs) r) : Builds .product (ls ++ k :: rs) (.binary .mul l r) := by
  intro stack hb
  obtain ⟨s, p, hls, hc⟩ := hl _ hb
  have hc : closeProduct s p = (stack, l) := hc.trans (hb.closeProduct l)
  obtain ⟨s', p', hrs, hc'⟩ := hr _ (.of_signed (.product .mul l :: stack) (by decide))
  cases hrs with
  | cons h1 hrs =>
    have hk' := readOperator_operand s p hk
    rw [hc] at hk'
    refine ⟨s', p', hls.trans (.cons (hk'.trans h1) hrs), ?_⟩
    exact (close_product_congr hc').trans (hb.closeProduct _).symm

theorem sum (op : Operator) (ho : op.precedence = 1) (hl : Builds .sum ls l)
    (hr : Builds .product rs r) : Builds .sum (ls ++ op.token :: rs) (.binary op l r) := by
  intro stack hb
  obtain ⟨s, p, hls, hc⟩ := hl _ hb
  have hc : closeSum s p = (stack, l) := hc.trans (hb.closeSum l)
  obtain ⟨s', p', hrs, hc'⟩ := hr (.sum op l :: stack) (Nat.le_refl 3)
  refine ⟨s', p', hls.trans (.cons (step_sum ho hc) hrs), ?_⟩
  exact (close_sum_congr hc').trans (hb.closeSum _).symm

end Builds

/-- The reader builds what the tokens derive, whatever is open below. -/
theorem Derives.reads {c : Category} {ts : List Token} {t : Expression} (h : Derives c ts t) :
    Builds c ts t := by
  induction h with
  | number v => exact fun _ _ => ⟨_, _, .single rfl, rfl⟩
  | var => exact fun _ _ => ⟨_, _, .single rfl, rfl⟩
  | const c => cases c <;> exact fun _ _ => ⟨_, _, .single rfl, rfl⟩
  | call hs _ ih => exact .call (Meaning.ofName?_eq_function.2 hs) ih
  | reciprocal hs _ ih => exact .call (Meaning.ofName?_eq_reciprocal.2 hs) ih
  | group _ ih =>
    intro stack _
    obtain ⟨s, p, hr, hc⟩ := ih (.group none :: stack) trivial
    exact ⟨_, _, .cons rfl (hr.closeParen hc), rfl⟩
  | bare _ ih =>
    intro stack hb
    obtain ⟨s, p, hr, hc⟩ := ih _ (hb.mono (by decide))
    cases hc
    exact ⟨_, _, hr, rfl⟩
  | exponential _ _ ihb ihe => exact ihb.power ihe
  | raised _ hne _ ihb ihe =>
    have h := ihb.power ihe
    rw [Quadrature.powerOf, if_neg hne] at h
    exact h
  | unsigned _ ih => exact fun _ hb => ih _ (hb.mono (by decide))
  | positive _ ih =>
    intro stack hb
    obtain ⟨s, p, hr, hc⟩ := ih _ hb
    exact ⟨s, p, .cons rfl hr, hc⟩
  | negative _ ih =>
    intro stack _
    obtain ⟨s, p, hr, hc⟩ := ih _ (.of_signed (.negation :: stack) (by decide))
    exact ⟨s, p, .cons rfl hr, hc⟩
  | factor _ ih =>
    intro stack hb
    obtain ⟨s, p, hr, hc⟩ := ih _ (hb.mono (by decide))
    exact ⟨s, p, hr, close_product_congr hc⟩
  | times _ _ ihl ihr => exact .product .mul rfl ihl ihr
  | divided _ _ ihl ihr => exact .product .div rfl ihl ihr
  | juxtaposed _ hk _ ihl ihr => exact .juxtaposed hk ihl ihr
  | term _ ih =>
    intro stack hb
    obtain ⟨s, p, hr, hc⟩ := ih _ (hb.mono (by decide))
    exact ⟨s, p, hr, close_sum_congr hc⟩
  | add _ _ ihl ihr => exact .sum .add rfl ihl ihr
  | sub _ _ ihl ihr => exact .sum .sub rfl ihl ihr

end Quadrature
