import Quadrature.Proofs.Expression.RoundTrip
import Quadrature.Proofs.Rule.Error
import Quadrature.Proofs.Scalar.Arithmetic

/-!
# Values of expressions

At a finite point an expression has a finite value or none. Sums, differences, products,
quotients and functions on their domains are never NaN, so the only operation left that may
give NaN is a power of a negative base with an exponent that is no integer
(`evaluate_notANumber`).
-/

namespace Quadrature

/-! ## Checked results -/

section Checked

variable {op o : String} {v w : Float}

theorem checked_eq_ok : checked op v = .ok w ↔ w = v ∧ v.isFinite = true := by
  have hnan : v.isFinite = true → Scalar.isNaN v = false := isNaN_of_isFinite
  have hfin : Scalar.isFinite v = v.isFinite := rfl
  unfold checked
  rw [hfin]
  cases h : v.isFinite with
  | true => simp [hnan h, eq_comm]
  | false => cases Scalar.isNaN v <;> simp

theorem checked_notANumber (h : checked op v = .error (.notANumber o)) :
    o = op ∧ v.isNaN = true := by
  unfold checked at h
  split at h
  · next hnan => cases h; exact ⟨rfl, hnan⟩
  · split at h <;> cases h

end Checked

/-! ## Functions on their domains -/

namespace NamedFunction

/-- The real numbers at which a function is defined. -/
def domain : NamedFunction → Set ℚ
  | asin | acos => Set.Icc (-1) 1
  | sqrt => Set.Ici 0
  | ln | log10 => Set.Ioi 0
  | sin | cos | tan | atan | sinh | cosh | tanh | abs | exp => Set.univ

/-- The arguments that are let through are those of the domain. -/
theorem admits_iff {f : NamedFunction} {x : Float} (hx : x.isFinite = true) :
    f.admits x = true ↔ Scalar.value x ∈ f.domain := by
  obtain ⟨hzero, hv0⟩ := value_literal_zero
  obtain ⟨hone, hv1⟩ := value_literal_one
  obtain ⟨habs, hva⟩ := value_abs hx
  cases f with
  | sin | cos | tan | atan | sinh | cosh | tanh | abs | exp => exact ⟨fun _ => trivial, fun _ => rfl⟩
  | asin | acos =>
    show (!decide (1.0 < x.abs)) = true ↔ Scalar.value x ∈ Set.Icc (-1) 1
    rw [Bool.not_eq_true', decide_eq_false_iff_not, lt_iff hone habs, hv1, hva, not_lt, abs_le]
    rfl
  | sqrt =>
    show (!decide (x < 0.0)) = true ↔ Scalar.value x ∈ Set.Ici 0
    rw [Bool.not_eq_true', decide_eq_false_iff_not, lt_iff hx hzero, hv0, not_lt]
    rfl
  | ln | log10 =>
    show (!decide (x ≤ 0.0)) = true ↔ Scalar.value x ∈ Set.Ioi 0
    rw [Bool.not_eq_true', decide_eq_false_iff_not, le_iff hx hzero, hv0, not_le]
    rfl

end NamedFunction

/-- What a mathematical library is relied on for: functions are not NaN on their domains,
and a power is NaN only for a negative base with an exponent that is no integer. -/
structure Elementary.Reliable [Elementary Float] : Prop where
  value : ∀ (f : NamedFunction) (x : Float), f ≠ .abs → x.isFinite = true →
    Scalar.value x ∈ f.domain → (f.value x).isNaN = false
  power : ∀ x y : Float, x.isFinite = true → y.isFinite = true →
    (Elementary.power x y).isNaN = true → Scalar.value x < 0 ∧ ∀ k : ℤ, Scalar.value y ≠ k

/-! ## Operations -/

section Operations

variable [Elementary Float] {l r x v : Float} {o : String}

theorem NamedFunction.apply_finite {f : NamedFunction} (h : f.apply x = .ok v) :
    v.isFinite = true := by
  unfold NamedFunction.apply at h
  split at h
  · obtain ⟨rfl, hv⟩ := checked_eq_ok.1 h
    exact hv
  · cases h

theorem Operator.apply_finite {op : Operator} (h : op.apply l r = .ok v) :
    v.isFinite = true := by
  have hchecked {name : String} {w : Float} (h : checked name w = .ok v) : v.isFinite = true := by
    obtain ⟨rfl, hv⟩ := checked_eq_ok.1 h
    exact hv
  cases op with
  | add | sub | mul => exact hchecked h
  | div | pow =>
    simp only [Operator.apply] at h
    split at h
    · cases h
    · exact hchecked h

theorem NamedFunction.apply_notANumber (hlib : Elementary.Reliable) {f : NamedFunction}
    (hx : x.isFinite = true) : f.apply x ≠ .error (.notANumber o) := by
  intro h
  unfold NamedFunction.apply at h
  split at h
  · next hadmits =>
    obtain ⟨-, hnan⟩ := checked_notANumber h
    have hnumber : (f.value x).isNaN = false := by
      by_cases hf : f = .abs
      · subst hf
        exact isNaN_of_isFinite (value_abs hx).1
      · exact hlib.value f x hf hx ((admits_iff hx).1 hadmits)
    rw [hnumber] at hnan
    cases hnan
  · cases h

/-- Only a power can be NaN, and only of a negative base. -/
theorem Operator.apply_notANumber (hlib : Elementary.Reliable) {op : Operator}
    (hl : l.isFinite = true) (hr : r.isFinite = true)
    (h : op.apply l r = .error (.notANumber o)) :
    op = .pow ∧ o = "power" ∧ Scalar.value l < 0 ∧ ∀ k : ℤ, Scalar.value r ≠ k := by
  have hrounds {q : ℚ} {w : Float} {name : String} (hw : Rounds q w) :
      checked name w ≠ .error (.notANumber o) := by
    intro h
    have hnan := (checked_notANumber h).2
    rw [hw.isNaN] at hnan
    cases hnan
  cases op with
  | add => exact absurd h (hrounds (rounds_add hl hr))
  | sub => exact absurd h (hrounds (rounds_sub hl hr))
  | mul => exact absurd h (hrounds (rounds_mul hl hr))
  | div =>
    simp only [Operator.apply] at h
    split at h
    · cases h
    · next hne =>
      have hne : Scalar.value r ≠ 0 := fun h0 => hne ((beq_zero_iff_value hr).2 h0)
      exact absurd h (hrounds (rounds_div hl hr hne))
  | pow =>
    simp only [Operator.apply] at h
    split at h
    · cases h
    · obtain ⟨rfl, hnan⟩ := checked_notANumber h
      exact ⟨rfl, rfl, hlib.power l r hl hr hnan⟩

end Operations

/-! ## Expressions -/

namespace Expression

/-- `Part s t`: `s` is a part of `t`, which may be all of it. -/
inductive Part (s : Expression) : Expression → Prop
  | self : Part s s
  | operand {t : Expression} : Part s t → Part s (neg t)
  | argument {f : NamedFunction} {t : Expression} : Part s t → Part s (call f t)
  | left {op : Operator} {l r : Expression} : Part s l → Part s (binary op l r)
  | right {op : Operator} {l r : Expression} : Part s r → Part s (binary op l r)

section Evaluation

variable [Elementary Float] {t : Expression} {x v : Float} {o : String}

/-- A power in `t` is not a number: its base is negative and its exponent no integer. -/
def HasUndefinedPower (t : Expression) (x : Float) : Prop :=
  ∃ l r b c, Part (binary .pow l r) t ∧
    (binary .pow l r).evaluate x = .error (.notANumber "power") ∧
    l.evaluate x = .ok b ∧ r.evaluate x = .ok c ∧
    Scalar.value b < 0 ∧ ∀ k : ℤ, Scalar.value c ≠ k

theorem HasUndefinedPower.mono {u : Expression} (h : HasUndefinedPower t x)
    (hpart : ∀ s, Part s t → Part s u) : HasUndefinedPower u x := by
  obtain ⟨l, r, b, c, hp, hrest⟩ := h
  exact ⟨l, r, b, c, hpart _ hp, hrest⟩

theorem evaluate_finite (ht : t.Finite) (hx : x.isFinite = true) (h : t.evaluate x = .ok v) :
    v.isFinite = true := by
  induction t generalizing v with
  | number w => cases h; exact ht
  | var => cases h; exact hx
  | const c => cases h; cases c <;> rfl
  | neg t ih =>
    obtain ⟨w, hw, h⟩ := bind_eq_ok.1 h
    cases h
    exact (value_neg (ih ht hw)).1
  | call f t ih =>
    obtain ⟨w, hw, h⟩ := bind_eq_ok.1 h
    exact NamedFunction.apply_finite h
  | binary op l r ihl ihr =>
    obtain ⟨b, hb, h⟩ := bind_eq_ok.1 h
    obtain ⟨c, hc, h⟩ := bind_eq_ok.1 h
    exact Operator.apply_finite h

theorem evaluate_notANumber (hlib : Elementary.Reliable) (ht : t.Finite)
    (hx : x.isFinite = true) (h : t.evaluate x = .error (.notANumber o)) :
    o = "power" ∧ HasUndefinedPower t x := by
  induction t with
  | number | var | const => cases h
  | neg t ih =>
    rcases bind_eq_error.1 h with h | ⟨w, hw, h⟩
    · obtain ⟨ho, hpower⟩ := ih ht h
      exact ⟨ho, hpower.mono fun _ => .operand⟩
    · cases h
  | call f t ih =>
    rcases bind_eq_error.1 h with h | ⟨w, hw, h⟩
    · obtain ⟨ho, hpower⟩ := ih ht h
      exact ⟨ho, hpower.mono fun _ => .argument⟩
    · exact absurd h (NamedFunction.apply_notANumber hlib (evaluate_finite (t := t) ht hx hw))
  | binary op l r ihl ihr =>
    have hwhole := h
    rcases bind_eq_error.1 h with h | ⟨b, hb, h⟩
    · obtain ⟨ho, hpower⟩ := ihl ht.1 h
      exact ⟨ho, hpower.mono fun _ => .left⟩
    rcases bind_eq_error.1 h with h | ⟨c, hc, h⟩
    · obtain ⟨ho, hpower⟩ := ihr ht.2 h
      exact ⟨ho, hpower.mono fun _ => .right⟩
    · obtain ⟨rfl, rfl, hneg, hint⟩ := Operator.apply_notANumber hlib
        (evaluate_finite ht.1 hx hb) (evaluate_finite ht.2 hx hc) h
      exact ⟨rfl, l, r, b, c, .self, hwhole, hb, hc, hneg, hint⟩

end Evaluation

end Expression

/-! ## Formulas -/

/-- A text makes a formula if it spells an expression and some probe gives it a value,
which is then finite. -/
theorem Formula.isOk_compileAt [Elementary Float] {probes : List Float} {source : String}
    (hprobes : ∀ x ∈ probes, x.isFinite = true) :
    (Formula.compileAt probes source).isOk = true ↔
      ∃ t, Expression.ofFolded (Text.foldChars source.toList) = .ok t ∧
        ∃ x ∈ probes, ∃ v, t.evaluate x = .ok v ∧ v.isFinite = true := by
  cases ht : Expression.ofFolded (Text.foldChars source.toList) with
  | error e =>
    rw [Formula.compileAt, ht]
    simp [Except.mapError, bind, Except.bind, Except.isOk, Except.toBool]
  | ok t =>
    have hfinite := (canonical_of_ofFolded ht).finite
    have hany : (probes.any fun x => (t.evaluate x).isOk) = true ↔
        ∃ x ∈ probes, ∃ v, t.evaluate x = .ok v ∧ v.isFinite = true := by
      rw [List.any_eq_true]
      refine exists_congr fun x => and_congr_right fun hx => ?_
      rw [isOk_iff]
      exact exists_congr fun v => ⟨fun h => ⟨h, Expression.evaluate_finite hfinite (hprobes x hx) h⟩,
        And.left⟩
    rw [compileAt_of_ofFolded ht]
    split
    · next h => exact ⟨fun _ => ⟨t, rfl, hany.1 h⟩, fun _ => rfl⟩
    · next h =>
      constructor
      · intro hok
        cases hok
      · rintro ⟨t', ht', hsome⟩
        cases ht'
        exact absurd (hany.2 hsome) h

/-- At a finite point an expression with finite numbers has a finite value or an error, and
the one error that is about NaN comes from a power of a negative base with an exponent that
is no integer. So a text makes a formula exactly if it spells an expression with a finite
value at some probe. -/
theorem evaluate_finite_or_error [Elementary Float] (hlib : Elementary.Reliable) :
    (∀ (t : Expression) (x : Float), t.Finite → x.isFinite = true →
      ((∃ v, t.evaluate x = .ok v ∧ v.isFinite = true) ∨ ∃ cause, t.evaluate x = .error cause) ∧
        ∀ o, t.evaluate x = .error (.notANumber o) → o = "power" ∧ t.HasUndefinedPower x) ∧
      ∀ (probes : List Float) (source : String), (∀ x ∈ probes, x.isFinite = true) →
        ((Formula.compileAt probes source).isOk = true ↔
          ∃ t, Expression.ofFolded (Text.foldChars source.toList) = .ok t ∧
            ∃ x ∈ probes, ∃ v, t.evaluate x = .ok v ∧ v.isFinite = true) := by
  refine ⟨fun t x ht hx => ⟨?_, fun o => Expression.evaluate_notANumber hlib ht hx⟩,
    fun probes source => Formula.isOk_compileAt⟩
  cases h : t.evaluate x with
  | error cause => exact .inr ⟨cause, rfl⟩
  | ok v => exact .inl ⟨v, rfl, Expression.evaluate_finite ht hx h⟩

/-- A library with the powers that are asked for below, among them the square root of `-4`. -/
abbrev rootLibrary : Elementary Float where
  sin _ := 0.0
  cos _ := 0.0
  tan _ := 0.0
  asin _ := 0.0
  acos _ := 0.0
  atan _ := 0.0
  sinh _ := 0.0
  cosh _ := 0.0
  tanh _ := 0.0
  sqrt _ := 0.0
  exp _ := 0.0
  ln _ := 0.0
  log10 _ := 0.0
  power x y := if x = -4.0 ∧ y = 0.5 then 0.0 / 0.0 else 1.0

theorem reliable_rootLibrary : @Elementary.Reliable rootLibrary := by
  have hzero : (0.0 : Float).isNaN = false := isNaN_of_isFinite value_literal_zero.1
  have hone : (1.0 : Float).isNaN = false := isNaN_of_isFinite value_literal_one.1
  have hbase : (-4.0 : Float).toModel.unpack = .finite .negative (2 ^ 52) (-50) (by norm_num) := by
    rfl
  have hexponent : (0.5 : Float).toModel.unpack = .finite .positive (2 ^ 52) (-53) (by norm_num) := by
    rfl
  refine @Elementary.Reliable.mk rootLibrary (fun f x hf _ _ => ?_) fun x y _ _ hnan => ?_
  · cases f with
    | abs => exact absurd rfl hf
    | _ => exact hzero
  · by_cases h : x = -4.0 ∧ y = 0.5
    · obtain ⟨rfl, rfl⟩ := h
      rw [(value_finite hbase).2, (value_finite hexponent).2]
      refine ⟨by norm_num [signed], fun k hk => ?_⟩
      have hk : (2 : ℚ) * k = 1 := by
        rw [← hk]
        norm_num [signed]
      have hk : 2 * k = 1 := by exact_mod_cast hk
      omega
    · have hpower : rootLibrary.power x y = 1.0 := if_neg h
      rw [hpower, hone] at hnan
      cases hnan

/-- The square root of `-4` is not a number, that of `1` makes the formula. -/
theorem evaluate_finite_or_error_root :
    let _ := rootLibrary
    (Expression.binary .pow .var (.number 0.5)).HasUndefinedPower (-4.0) ∧
      (Formula.compileAt [-4.0, 1.0] "x^0.5").isOk = true := by
  intro library
  obtain ⟨hvalues, hformulas⟩ := @evaluate_finite_or_error library reliable_rootLibrary
  have hfinite : (Expression.binary .pow .var (.number 0.5)).Finite := ⟨trivial, by rfl⟩
  constructor
  · exact ((hvalues _ (-4.0) hfinite (by rfl)).2 "power" (by decide +kernel)).2
  · refine (hformulas _ _ (by decide +kernel)).2
      ⟨.binary .pow .var (.number 0.5), by decide +kernel, 1.0, by simp, 1.0, ?_⟩
    decide +kernel

end Quadrature
