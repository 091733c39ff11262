import Quadrature.Catalogue.BuiltIn
import Quadrature.Proofs.Expression.Evaluation
import Quadrature.Proofs.Rule.Abscissae
import Quadrature.Proofs.Scalar.Overflow

/-!
# Intervals with an exact value

An exact value of a built-in entry is given only for intervals on which the entry is defined
(`Entry.exact_defined`), although no more than the nodes of a grid are looked at. Only functions
and operators with a restricted domain can be refused their operands, and most formulas have
none (`Expression.isTotal`). For the others it matters where the interval begins: there the grid
has a node and the antiderivative a value; and the one singular point lies outside.
-/

namespace Quadrature

/-! ## Refusals -/

/-- The operation was not carried out, as its operands are outside its domain. -/
def EvaluationError.IsRefusal {α : Type} : EvaluationError α → Prop
  | domain _ _ | divisionByZero => True
  | overflow _ | notANumber _ => False

theorem checked_not_refusal {name : String} {v : Float} {cause : EvaluationError Float}
    (h : checked name v = .error cause) : ¬ cause.IsRefusal := by
  unfold checked at h
  split at h
  · cases h
    exact not_false
  · split at h <;> cases h
    exact not_false

/-- The operands with which an operation is carried out. -/
def Operator.admits : Operator → Float → Float → Bool
  | add, _, _ | sub, _, _ | mul, _, _ => true
  | div, _, r => !(r == 0.0)
  | pow, l, r => !(l == 0.0 && r < 0.0)

/-- A function whose domain has no upper bound is carried out above a point where it is. -/
theorem NamedFunction.admits_above {f : NamedFunction} {a x : Float} (hf : IsUpperSet f.domain)
    (ha : a.isFinite = true) (hx : x.isFinite = true) (hax : Scalar.value a ≤ Scalar.value x)
    (h : f.admits a = true) : f.admits x = true :=
  (admits_iff hx).2 (hf hax ((admits_iff ha).1 h))

section Operations

variable [Elementary Float] {x y v : Float} {cause : EvaluationError Float}

theorem NamedFunction.apply_not_refusal {f : NamedFunction} (hadmits : f.admits x = true)
    (h : f.apply x = .error cause) : ¬ cause.IsRefusal := by
  rw [apply, if_pos hadmits] at h
  exact checked_not_refusal h

theorem Operator.apply_not_refusal {op : Operator} (hadmits : op.admits x y = true)
    (h : op.apply x y = .error cause) : ¬ cause.IsRefusal := by
  cases op with
  | add | sub | mul => exact checked_not_refusal h
  | div =>
    have hne : ¬ (y == 0.0) = true := by simpa [admits] using hadmits
    rw [apply, if_neg hne] at h
    exact checked_not_refusal h
  | pow =>
    have hne : ¬ (x == 0.0 && decide (y < 0.0)) = true := by
      rwa [admits, Bool.not_eq_true', ← Bool.not_eq_true] at hadmits
    rw [apply, if_neg hne] at h
    exact checked_not_refusal h

/-- A function has a value only where it is carried out. -/
theorem NamedFunction.apply_eq_ok {f : NamedFunction} (h : f.apply x = .ok v) :
    f.admits x = true ∧ (f.value x).isFinite = true := by
  unfold NamedFunction.apply at h
  split at h
  · next hadmits => exact ⟨hadmits, (checked_eq_ok.1 h).2⟩
  · cases h

theorem Operator.apply_pow_eq_ok (h : pow.apply x y = .ok v) :
    v = Elementary.power x y ∧ (Elementary.power x y).isFinite = true := by
  simp only [Operator.apply] at h
  split at h
  · cases h
  · exact checked_eq_ok.1 h

end Operations

/-! ## Expressions -/

/-- Functions that are defined everywhere. -/
def NamedFunction.isTotal : NamedFunction → Bool
  | asin | acos | sqrt | ln | log10 => false
  | sin | cos | tan | atan | sinh | cosh | tanh | abs | exp => true

theorem NamedFunction.admits_of_isTotal {f : NamedFunction} (h : f.isTotal = true) (x : Float) :
    f.admits x = true := by
  cases f <;> first | rfl | cases h

/-- Operators that are carried out whatever is on the left, with `r` on the right. -/
def Operator.isTotalBefore : Operator → Expression → Bool
  | add, _ | sub, _ | mul, _ => true
  | div, .number c => !(c == 0.0)
  | pow, .number c => !(c < 0.0)
  | div, _ | pow, _ => false

namespace Expression

/-- Expressions in which every function and operator is defined everywhere. -/
def isTotal : Expression → Bool
  | number _ | var | const _ => true
  | neg t => t.isTotal
  | call f t => f.isTotal && t.isTotal
  | binary op l r => op.isTotalBefore r && l.isTotal && r.isTotal

variable [Elementary Float] {f : NamedFunction} {op : Operator} {t l r : Expression} {x y z : Float}

/-- The evaluation at `x` does not end in a refusal. -/
def DefinedAt (t : Expression) (x : Float) : Prop :=
  ∀ cause, t.evaluate x = .error cause → ¬ cause.IsRefusal

theorem DefinedAt.neg (h : t.DefinedAt x) : (neg t).DefinedAt x := by
  intro cause hcause
  rcases bind_eq_error.1 hcause with ht | ⟨y, -, hy⟩
  · exact h cause ht
  · cases hy

theorem DefinedAt.call (h : t.DefinedAt x)
    (hadmits : ∀ y, t.evaluate x = .ok y → f.admits y = true) : (call f t).DefinedAt x := by
  intro cause hcause
  rcases bind_eq_error.1 hcause with ht | ⟨y, hy, happly⟩
  · exact h cause ht
  · exact NamedFunction.apply_not_refusal (hadmits y hy) happly

theorem DefinedAt.binary (hl : l.DefinedAt x) (hr : r.DefinedAt x)
    (hadmits : ∀ y z, l.evaluate x = .ok y → r.evaluate x = .ok z → op.admits y z = true) :
    (binary op l r).DefinedAt x := by
  intro cause hcause
  rcases bind_eq_error.1 hcause with hleft | ⟨y, hy, hcause⟩
  · exact hl cause hleft
  rcases bind_eq_error.1 hcause with hright | ⟨z, hz, happly⟩
  · exact hr cause hright
  · exact Operator.apply_not_refusal (hadmits y z hy hz) happly

theorem admits_of_isTotalBefore (h : op.isTotalBefore r = true) (hz : r.evaluate x = .ok z) :
    op.admits y z = true := by
  cases op with
  | add | sub | mul => rfl
  | div =>
    cases r with
    | number c => cases hz; exact h
    | _ => cases h
  | pow =>
    cases r with
    | number c =>
      have hc : decide (c < 0.0) = false := by simpa [Operator.isTotalBefore] using h
      obtain rfl := Except.ok.inj hz
      rw [Operator.admits, hc, Bool.and_false, Bool.not_false]
    | _ => cases h

theorem definedAt_of_isTotal (h : t.isTotal = true) (x : Float) : t.DefinedAt x := by
  induction t with
  | number | var | const => exact nofun
  | neg t ih => exact (ih h).neg
  | call f t ih =>
    rw [isTotal, Bool.and_eq_true] at h
    exact (ih h.2).call fun y _ => NamedFunction.admits_of_isTotal h.1 y
  | binary op l r ihl ihr =>
    rw [isTotal, Bool.and_eq_true, Bool.and_eq_true] at h
    exact (ihl h.1.2).binary (ihr h.2) fun _ _ _ hz => admits_of_isTotalBefore h.1.1 hz

end Expression

/-! ## What an exact value tells -/

/-- The first node of a grid is where the grid begins, unless the width overflows. -/
theorem Grid.value_node_zero_of_isFinite {g : Grid Float} (ha : g.a.isFinite = true)
    (hb : g.b.isFinite = true) (hab : Scalar.value g.a ≤ Scalar.value g.b) (hpos : 0 < g.panels)
    (hpanels : g.panels ≤ 2 ^ 49) (h : (g.node 0).isFinite = true) :
    Scalar.value (g.node 0) = Scalar.value g.a := by
  have hwidth : (g.b - g.a).isFinite = true := by
    rw [node, if_neg hpos.ne] at h
    exact isFinite_of_div (isFinite_of_mul (isFinite_of_add h).2).2
  exact (value_node_zero ha hb hab hwidth hpos hpanels).2

namespace Entry

section Intervals

variable [Elementary Float] {e : Entry} {a b x : Float}

theorem exact_eq_some {d : Float} : e.exact a b = some d ↔
    ∃ antiderivative upper lower, e.antiderivative = some antiderivative ∧
      e.isIntegrableOn a b = true ∧ antiderivative.evaluate b = .ok upper ∧
      antiderivative.evaluate a = .ok lower ∧ (upper - lower).isFinite = true ∧
      d = upper - lower := by
  simp only [exact, Option.bind_eq_bind, Option.bind_eq_some_iff, toOption_eq_some]
  constructor
  · rintro ⟨antiderivative, hentry, _, hintegrable, upper, hupper, lower, hlower, _, hfinite, h⟩
    exact ⟨antiderivative, upper, lower, hentry, by simpa using hintegrable, hupper, hlower,
      by simpa using hfinite, (Option.some.inj h).symm⟩
  · rintro ⟨antiderivative, upper, lower, hentry, hintegrable, hupper, hlower, hfinite, rfl⟩
    exact ⟨antiderivative, hentry, (), by simpa using hintegrable, upper, hupper, lower, hlower, (),
      by simpa using hfinite, rfl⟩

theorem not_singular (h : e.isIntegrableOn a b = true) (hx : x ∈ e.singularities) :
    ¬ (a ≤ x ∧ x ≤ b) := by
  rw [isIntegrableOn, Bool.and_eq_true, Bool.not_eq_true', List.any_eq_false] at h
  simpa using h.1 x hx

theorem exists_node_zero (h : e.isIntegrableOn a b = true) :
    ∃ v, e.evaluate ((Grid.mk a b coarseSteps).node 0) = .ok v := by
  rw [isIntegrableOn, Bool.and_eq_true, List.all_eq_true] at h
  have hpos : 0 < Scalar.count Float (coarseSteps + 1) := by decide
  have hmem : (Grid.mk a b coarseSteps).node 0 ∈ (Grid.mk a b coarseSteps).nodes :=
    List.mem_map_of_mem (List.mem_range.2 hpos)
  exact isOk_iff.1 (h.2 _ hmem)

/-! ## Built-in entries -/

open Expression

theorem definedAt_call_var {f : NamedFunction} (h : f.admits x = true) :
    (call f var).DefinedAt x := by
  refine DefinedAt.call (definedAt_of_isTotal rfl x) fun y hy => ?_
  obtain rfl := Except.ok.inj hy
  exact h

theorem definedAt_reciprocal (ha : a.isFinite = true) (hb : b.isFinite = true)
    (hx : Within a b x) (h : ¬ (a ≤ 0.0 ∧ 0.0 ≤ b)) :
    (binary .div (number 1.0) var).DefinedAt x := by
  refine DefinedAt.binary (definedAt_of_isTotal rfl x) (definedAt_of_isTotal rfl x)
    fun y z _ hz => ?_
  obtain rfl := Except.ok.inj hz
  obtain ⟨hfinite, hax, hxb⟩ := (within_iff ha hb).1 hx
  obtain ⟨hzero, hvalue⟩ := value_literal_zero
  have hne : ¬ (x == 0.0) = true := fun hx0 => by
    rw [(beq_zero_iff_value hfinite).1 hx0, ← hvalue] at hax hxb
    exact h ⟨(le_iff ha hzero).2 hax, (le_iff hzero hb).2 hxb⟩
  simpa [Operator.admits] using hne

/-- One and a square do not cancel. -/
theorem definedAt_arctan_kernel
    (hsquare : ∀ x : Float, x.isFinite = true → ¬ Elementary.power x 2.0 < 0.0)
    (hx : x.isFinite = true) :
    (binary .div (number 1.0)
      (binary .add (number 1.0) (binary .pow var (number 2.0)))).DefinedAt x := by
  have htotal : (binary .add (number 1.0) (binary .pow var (number 2.0))).isTotal = true := by
    decide +kernel
  refine DefinedAt.binary (definedAt_of_isTotal rfl x) (definedAt_of_isTotal htotal x)
    fun y z _ hz => ?_
  obtain ⟨u, hu, hz⟩ := bind_eq_ok.1 hz
  obtain ⟨rfl, hfinite⟩ := Operator.apply_pow_eq_ok hu
  obtain ⟨rfl, hzfinite⟩ := checked_eq_ok.1 hz
  obtain ⟨hzero, hvalue⟩ := value_literal_zero
  obtain ⟨hone, hvalueOne⟩ := value_literal_one
  have hnonneg : 0 ≤ Scalar.value (Elementary.power x 2.0) := by
    have hnot := hsquare x hx
    rwa [lt_iff hfinite hzero, hvalue, not_lt] at hnot
  have hsum : 1 ≤ Scalar.value (1.0 + Elementary.power x 2.0) :=
    (rounds_add hone hfinite).representable_le hzfinite representable_one (by linarith)
  have hne : ¬ (1.0 + Elementary.power x 2.0 == 0.0) = true := fun h => by
    have hzero := (beq_zero_iff_value hzfinite).1 h
    linarith
  simpa [Operator.admits] using hne

/-- The first node has a root, so it is a number and the interval begins there. -/
theorem admits_sqrt (hroot : ∀ x : Float, (Elementary.sqrt x).isFinite = true → x.isFinite = true)
    (ha : a.isFinite = true) (hb : b.isFinite = true) (hx : Within a b x)
    (hnode : ∃ v, NamedFunction.sqrt.apply ((Grid.mk a b coarseSteps).node 0) = .ok v) :
    NamedFunction.sqrt.admits x = true := by
  obtain ⟨v, hv⟩ := hnode
  obtain ⟨hadmits, hfinite⟩ := NamedFunction.apply_eq_ok hv
  obtain ⟨hxfinite, hax, hxb⟩ := (within_iff ha hb).1 hx
  have hbegin := Grid.value_node_zero_of_isFinite (g := .mk a b coarseSteps) ha hb
    (hax.trans hxb) (by norm_num [coarseSteps]) (by norm_num [coarseSteps]) (hroot _ hfinite)
  exact NamedFunction.admits_above (isUpperSet_Ici 0) (hroot _ hfinite) hxfinite
    (hbegin.trans_le hax) hadmits

/-- The antiderivative has a value where the interval begins, so its logarithm has one. -/
theorem admits_ln (ha : a.isFinite = true) (hb : b.isFinite = true) (hx : Within a b x)
    {v : Float} (hv : (binary .sub (binary .mul var (call .ln var)) var).evaluate a = .ok v) :
    NamedFunction.ln.admits x = true := by
  obtain ⟨product, hproduct, -⟩ := bind_eq_ok.1 hv
  obtain ⟨logarithm, hlogarithm, -⟩ := bind_eq_ok.1 hproduct
  have hadmits : NamedFunction.ln.admits a = true := (NamedFunction.apply_eq_ok hlogarithm).1
  obtain ⟨hfinite, hax, -⟩ := (within_iff ha hb).1 hx
  exact NamedFunction.admits_above (isUpperSet_Ioi 0) ha hfinite hax hadmits

/-- Where a built-in entry has an exact value it is defined, if squares are not negative and, as
is true of the machine's roots (`isFinite_of_sqrt`), only finite numbers have a finite root. -/
theorem definedAt_of_exact
    (hsquare : ∀ x : Float, x.isFinite = true → ¬ Elementary.power x 2.0 < 0.0)
    (hroot : ∀ x : Float, (Elementary.sqrt x).isFinite = true → x.isFinite = true)
    (he : e ∈ builtIn) (ha : a.isFinite = true) (hb : b.isFinite = true)
    (hexact : (e.exact a b).isSome = true) (hx : Within a b x) : e.formula.body.DefinedAt x := by
  obtain ⟨d, hd⟩ := Option.isSome_iff_exists.1 hexact
  obtain ⟨antiderivative, upper, lower, hantiderivative, hintegrable, -, hlower, -⟩ :=
    exact_eq_some.1 hd
  simp only [builtIn, List.mem_cons, List.not_mem_nil, or_false] at he
  -- the entries in their order
  rcases he with rfl | rfl | rfl | rfl | rfl | rfl | rfl | rfl | rfl | rfl | rfl
  · exact definedAt_of_isTotal (by decide +kernel) x
  · exact definedAt_of_isTotal (by decide +kernel) x
  · exact definedAt_of_isTotal rfl x
  · exact definedAt_of_isTotal rfl x
  · exact definedAt_of_isTotal rfl x
  · exact definedAt_reciprocal ha hb hx (not_singular hintegrable List.mem_cons_self)
  · exact definedAt_call_var (admits_sqrt hroot ha hb hx (exists_node_zero hintegrable))
  · cases hantiderivative
    exact definedAt_call_var (admits_ln ha hb hx hlower)
  · exact definedAt_arctan_kernel hsquare hx.isFinite
  · exact definedAt_of_isTotal rfl x
  · exact definedAt_of_isTotal (by decide +kernel) x

/-- An exact value is given for no interval with a point at which a built-in entry is refused a
value, be it for its domain or for a zero divisor. -/
theorem exact_defined
    (hsquare : ∀ x : Float, x.isFinite = true → ¬ Elementary.power x 2.0 < 0.0)
    (hroot : ∀ x : Float, (Elementary.sqrt x).isFinite = true → x.isFinite = true)
    (e : Entry) (he : e ∈ builtIn) (a b : Float) (ha : a.isFinite = true) (hb : b.isFinite = true)
    (hexact : (e.exact a b).isSome = true) (x : Float) (hax : a ≤ x) (hxb : x ≤ b) :
    (∀ function argument, e.evaluate x ≠ .error (.domain function argument)) ∧
      e.evaluate x ≠ .error .divisionByZero := by
  have hx : Within a b x := ⟨isFinite_of_le ha hb hax hxb, hax, hxb⟩
  have hdefined := definedAt_of_exact hsquare hroot he ha hb hexact hx
  exact ⟨fun _ _ h => hdefined _ h trivial, fun h => hdefined _ h trivial⟩

end Intervals

theorem not_mul_self_lt_zero {x : Float} (hx : x.isFinite = true) : ¬ x * x < 0.0 := by
  intro hlt
  obtain ⟨hzero, hvalue⟩ := value_literal_zero
  have hle : 0.0 ≤ x * x :=
    (rounds_mul hx hx).below 0.0 hzero (hvalue.trans_le (mul_self_nonneg (Scalar.value x)))
  have hfinite : (x * x).isFinite = true := isFinite_of_le hzero hzero hle (le_of_lt_double hlt)
  exact absurd ((lt_iff hfinite hzero).1 hlt) (not_lt.2 ((le_iff hzero hfinite).1 hle))

/-- The mathematical library with its powers to two and to three halves. -/
abbrev rootsLibrary : Elementary Float :=
  { (inferInstance : Elementary Float) with
    power := fun x y => if y == 2.0 then x * x else x * x.sqrt }

/-- The square root is defined on an interval that begins where its domain does. -/
theorem exact_defined_square_root :
    let _ := rootsLibrary
    ∃ e ∈ builtIn, e.name = "square_root" ∧ (e.exact 0.0 1.0).isSome = true ∧
      ∀ function argument, e.evaluate 0.5 ≠ .error (.domain function argument) := by
  have hsquare : ∀ x : Float, x.isFinite = true → ¬ rootsLibrary.power x 2.0 < 0.0 := by
    intro x hx
    have hpower : rootsLibrary.power x 2.0 = x * x := if_pos (by decide +kernel)
    rw [hpower]
    exact not_mul_self_lt_zero hx
  have hroot : ∀ x : Float, (rootsLibrary.sqrt x).isFinite = true → x.isFinite = true :=
    fun _ hx => isFinite_of_sqrt hx
  obtain ⟨e, he, hname, hexact⟩ : ∃ e ∈ builtIn, e.name = "square_root" ∧
      (@exact rootsLibrary e 0.0 1.0).isSome = true := by decide +kernel
  have hdefined := @exact_defined rootsLibrary hsquare hroot e he 0.0 1.0 (by rfl) (by rfl) hexact
    0.5 (by decide +kernel) (by decide +kernel)
  exact ⟨e, he, hname, hexact, hdefined.1⟩

end Entry

end Quadrature
