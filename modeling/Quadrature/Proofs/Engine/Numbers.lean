import Quadrature.Proofs.Catalogue
import Quadrature.Proofs.Catalogue.Exact
import Quadrature.Proofs.Engine.Acceptance
import Quadrature.Proofs.Rule.Numbers

/-!
# The numbers in a report

No NaN and no infinity enters a report as a value, as an exact integral, in a sweep or as a
sample. Errors are never NaN and never negative; they are infinite where a difference or a
quotient overflows. A bound is a magnitude unless a product in it overflows.
-/

namespace Quadrature

/-! ## Results -/

/-- The numbers of a result beside an exact value, with the factors behind its bound. -/
structure RuleResult.Numbers (res : RuleResult) (exact : Option Float) (factors : List (Float × Float)) :
    Prop where
  value : ∃ v, res.value = some v ∧ v.isFinite = true
  bound : ∀ w, res.errorBound = some w → (IsMagnitude w ↔ ∀ t ∈ factors, HasProduct t)
  absolute : ∀ d, res.absoluteError = some d → 0.0 ≤ d ∧
    ∀ v x, res.value = some v → exact = some x →
      (d.isFinite = true ↔ |Scalar.value v - Scalar.value x| < overflow)
  relative : ∀ d, res.relativeError = some d → 0.0 ≤ d ∧
    ∀ v x, res.value = some v → exact = some x →
      |Scalar.value v - Scalar.value x| < overflow →
      |Scalar.value v - Scalar.value x| ≤ 2 ^ (1016 : ℤ) * |Scalar.value x| → d.isFinite = true

section Errors

variable {v x : Float}

theorem isFinite_absoluteError (hv : v.isFinite = true) (hx : x.isFinite = true) :
    (v - x).abs.isFinite = true ↔ |Scalar.value v - Scalar.value x| < overflow :=
  isFinite_abs_iff.trans (rounds_sub hv hx).isFinite_iff

/-- Errors are not negative and not NaN. -/
theorem atLeast_errors (hv : v.isFinite = true) (hx : x.isFinite = true) :
    AtLeast 0 (v - x).abs ∧
      (Scalar.value x ≠ 0 → AtLeast 0 ((v - x).abs / x.abs * 100.0)) := by
  have habsolute := atLeast_zero_abs (rounds_sub hv hx).isNaN
  refine ⟨habsolute, fun hne => ?_⟩
  obtain ⟨hxa, hva⟩ := value_abs hx
  obtain ⟨hfin, hvalue⟩ := value_literal_hundred
  have hfactor : AtLeast 1 (100.0 : Float) := .inr ⟨hfin, by rw [hvalue]; norm_num⟩
  exact (habsolute.div hxa (hva ▸ abs_pos.2 hne)).mul hfactor le_rfl (.inr hfin)
    representable_zero overflow_pos

theorem value_absoluteError_le (hv : v.isFinite = true) (hx : x.isFinite = true)
    (hfin : (v - x).abs.isFinite = true) {z : ℚ} (hz : Representable z)
    (hle : |Scalar.value v - Scalar.value x| ≤ z) :
    0 ≤ Scalar.value (v - x).abs ∧ Scalar.value (v - x).abs ≤ z := by
  have hround := rounds_sub hv hx
  have hfin := isFinite_abs_iff.1 hfin
  obtain ⟨hlow, hhigh⟩ := abs_le.1 hle
  rw [(value_abs hfin).2]
  exact ⟨abs_nonneg _, abs_le.2 ⟨hround.representable_le hfin hz.neg hlow,
    hround.le_representable hfin hz hhigh⟩⟩

/-- A difference of `2 ^ 1016` times the exact value still has a finite relative error. -/
theorem isFinite_relativeError (hv : v.isFinite = true) (hx : x.isFinite = true)
    (hne : Scalar.value x ≠ 0) (hlt : |Scalar.value v - Scalar.value x| < overflow)
    (hle : |Scalar.value v - Scalar.value x| ≤ 2 ^ (1016 : ℤ) * |Scalar.value x|) :
    ((v - x).abs / x.abs * 100.0).isFinite = true := by
  obtain ⟨hxa, hva⟩ := value_abs hx
  obtain ⟨hhundred, hv100⟩ := value_literal_hundred
  have hpos : 0 < Scalar.value x.abs := hva ▸ abs_pos.2 hne
  have hfin := (isFinite_absoluteError hv hx).2 hlt
  obtain ⟨habs0, habs⟩ := value_absoluteError_le hv hx hfin
    ((representable_value hxa).zpow_mul (by norm_num : (0 : ℤ) ≤ 1016)) (hva ▸ hle)
  have hdiv := rounds_div hfin hxa hpos.ne'
  have hquotient0 : 0 ≤ Scalar.value (v - x).abs / Scalar.value x.abs := by positivity
  have hquotient : Scalar.value (v - x).abs / Scalar.value x.abs ≤ 2 ^ (1016 : ℤ) :=
    (div_le_iff₀ hpos).2 habs
  have hdivFin : ((v - x).abs / x.abs).isFinite = true := by
    rw [hdiv.isFinite_iff, abs_of_nonneg hquotient0]
    exact hquotient.trans_lt (zpow_lt_overflow (by norm_num))
  have hdiv0 := hdiv.value_nonneg hdivFin hquotient0
  have hdivLe := hdiv.le_representable hdivFin (representable_zpow (by norm_num)) hquotient
  rw [(rounds_mul hdivFin hhundred).isFinite_iff, hv100, abs_of_nonneg (by positivity)]
  calc Scalar.value ((v - x).abs / x.abs) * 100 ≤ 2 ^ (1016 : ℤ) * 100 := by gcongr
    _ < 2 ^ (1016 : ℤ) * 2 ^ (7 : ℤ) := by
        gcongr
        norm_num
    _ = 2 ^ (1023 : ℤ) := by
        rw [← zpow_add₀ two_ne_zero]
        norm_num
    _ ≤ overflow := zpow_le_overflow le_rfl

end Errors

theorem RuleResult.numbers_ofValue {rule : Rule} {v : Float} {bound exact : Option Float}
    {factors : List (Float × Float)} (hv : v.isFinite = true)
    (hexact : ∀ x, exact = some x → x.isFinite = true)
    (hbound : ∀ w, bound = some w → (IsMagnitude w ↔ ∀ t ∈ factors, HasProduct t)) :
    (RuleResult.ofValue rule v bound exact).Numbers exact factors where
  value := ⟨v, rfl, hv⟩
  bound := hbound
  absolute d hd := by
    obtain ⟨x, hx, rfl⟩ := Option.map_eq_some_iff.1 hd
    refine ⟨atLeast_zero_iff.1 (atLeast_errors hv (hexact x hx)).1, fun v' x' hv' hx' => ?_⟩
    cases hv'
    obtain rfl := Option.some.inj (hx.symm.trans hx')
    exact isFinite_absoluteError hv (hexact x hx)
  relative d hd := by
    obtain ⟨x, hx, rfl⟩ := Option.map_eq_some_iff.1 hd
    obtain ⟨hx, hne⟩ := Option.filter_eq_some_iff.1 hx
    have hfin := hexact x hx
    have hne : Scalar.value x ≠ 0 := by
      intro h0
      have hzero := (beq_zero_iff_value hfin).2 h0
      rw [bne, hzero] at hne
      cases hne
    refine ⟨atLeast_zero_iff.1 ((atLeast_errors hv hfin).2 hne), fun v' x' hv' hx' => ?_⟩
    cases hv'
    obtain rfl := Option.some.inj (hx.symm.trans hx')
    exact isFinite_relativeError hv hfin hne

/-! ## Sweeps -/

section Sweeps

variable {f : Integrand Float} {a b v : Float} {n : ℕ} {ns : List ℕ} {ms : List Method}
  {rule : Rule} {t : RuleTable Float}

/-- What is recorded in a table is the value of some run, or it was there before. -/
theorem ConvergencePoint.of_get?_foldl_record
    {runs : List (Except (RuleError Float) Float × Method)}
    (h : (runs.foldl record t).get? rule = some v) :
    (∃ run ∈ runs, run.1 = .ok v) ∨ t.get? rule = some v := by
  induction runs generalizing t with
  | nil => exact .inr h
  | cons run runs ih =>
    rcases ih h with ⟨run', hrun', hv⟩ | ht
    · exact .inl ⟨run', List.mem_cons_of_mem run hrun', hv⟩
    · rw [get?_record] at ht
      split at ht
      · cases hrun : run.1 with
        | error e =>
          rw [hrun] at ht
          exact .inr ht
        | ok w =>
          rw [hrun] at ht
          cases ht
          exact .inl ⟨run, List.mem_cons_self, hrun⟩
      · exact .inr ht

theorem kept_finitePositions : Method.Kept Method.HasFinitePositions :=
  Method.kept_ofSampler fun _ c hs => hs.call c

theorem finitePositions_ofRule (seed : UInt64) (rule : Rule) :
    (Method.ofRule seed rule).HasFinitePositions :=
  Method.ofSampler_ofRule (fun _ _ hp => absurd hp List.not_mem_nil) seed rule

/-- Every value of a sweep is finite. -/
theorem isFinite_sweep (hms : ∀ m ∈ ms, m.HasFinitePositions) (hf : f.IsFinite) :
    ∀ q ∈ (sweep f a b ns ms).1, ∀ rule v, q.values.get? rule = some v → v.isFinite = true := by
  induction ns generalizing ms with
  | nil => intro q hq; cases hq
  | cons n ns ih =>
    intro q hq rule v hv
    rcases List.mem_cons.1 hq with rfl | hq
    · rcases ConvergencePoint.of_get?_foldl_record hv with ⟨run, hrun, hok⟩ | hnone
      · obtain ⟨m, hm, rfl⟩ := List.mem_map.1 hrun
        exact Method.integrate_isFinite (hms m hm) hf hok
      · cases hnone
    · refine ih (fun m hm => ?_) q hq rule v hv
      simp only [List.map_map, List.mem_map] at hm
      obtain ⟨m', hm', rfl⟩ := hm
      exact kept_finitePositions.integrate f a b n (hms m' hm')

end Sweeps

/-! ## Reports -/

namespace Engine

section Runs

variable {m : Method} {f : Integrand Float} {a b : Float} {n : ℕ} {exact : Option Float}

theorem numbers_resultOf (hm : m.HasFinitePositions) (hf : f.IsFinite)
    (hexact : ∀ x, exact = some x → x.isFinite = true)
    (hfailure : (resultOf m f a b n exact).1.failure = none) :
    (resultOf m f a b n exact).1.Numbers exact (m.rule.factors f a b n) := by
  cases hint : (m.integrate f a b n).1 with
  | error cause =>
    rw [resultOf_of_error hint] at hfailure
    cases hfailure
  | ok v =>
    rw [resultOf_of_ok hint]
    have hm' := kept_finitePositions.integrate f a b n hm
    refine RuleResult.numbers_ofValue (Method.integrate_isFinite hm hf hint) hexact fun w hw => ?_
    have hbound : ((m.integrate f a b n).2.errorBound f a b n).1 = .ok (some w) := by
      have hw : ((m.integrate f a b n).2.errorBound f a b n).1.toOption.join = some w := hw
      cases hout : ((m.integrate f a b n).2.errorBound f a b n).1 with
      | error cause => rw [hout] at hw; cases hw
      | ok bound =>
        rw [hout] at hw
        exact congrArg Except.ok hw
    rw [← Method.rule_integrate (f := f) (a := a) (b := b) (n := n) (m := m)]
    exact Method.errorBound_isMagnitude hm' hf hbound

theorem isFinite_samples (hm : m.HasFinitePositions) (hf : f.IsFinite) :
    ∀ s ∈ (runOf m f a b n exact).samples, s.x.isFinite = true ∧ s.y.isFinite = true := by
  intro s hs
  rw [runOf_eq] at hs
  have hm' : (resultOf m f a b n exact).2.HasFinitePositions :=
    (kept_runOf kept_finitePositions hm).1
  cases hsamples : ((resultOf m f a b n exact).2.samples f a b n).1 with
  | error cause => rw [hsamples] at hs; cases hs
  | ok ps =>
    rw [hsamples] at hs
    exact Method.samples_isFinite hm' hf hsamples s hs

end Runs

section Reports

variable [Elementary Float] {c : Configuration} {e : Engine} {r : Request} {p : Report}
  {stamp : Stamp} {subject : Subject} {a b : Float}

theorem isFinite_exact {x : Float} (h : subject.exact a b = some x) : x.isFinite = true := by
  cases subject with
  | formula => cases h
  | entry entry =>
    obtain ⟨_, _, _, -, -, -, -, hfinite, rfl⟩ := Entry.exact_eq_some.1 h
    exact hfinite

/-- No NaN and no infinity enters a report, except for a bound with a product that overflows
and for errors that overflow. -/
theorem calculate_finite (hc : c.Arises) (he : Arises c e)
    (h : (e.calculate stamp r).1 = .ok p) :
    ∃ subject, Subject.ofSource c.catalogue r.function = .ok subject ∧
      (∀ res ∈ p.results, res.failure = none →
        res.Numbers p.exact (res.rule.factors subject.evaluate r.a r.b r.n)) ∧
      (∀ x, p.exact = some x → x.isFinite = true) ∧
      (∀ q ∈ p.convergence, ∀ rule v, q.values.get? rule = some v → v.isFinite = true) ∧
      ∀ s ∈ p.samples, s.x.isFinite = true ∧ s.y.isFinite = true := by
  have hcalc : e.calculate stamp r = (.ok p, (e.calculate stamp r).2) := Prod.ext h rfl
  obtain ⟨ms, subject, hA⟩ := calculate_eq_ok hcalc
  have hexact := exact_of_calculate hcalc hA.source
  have hsource := hA.source
  rw [he.constant.1] at hsource
  have hf := hc.isFinite.integrand hsource
  have hms : ∀ m ∈ ms, m.HasFinitePositions := fun m hm =>
    he.method kept_finitePositions finitePositions_ofRule (hA.registered m hm)
  have hfinite : ∀ x, p.exact = some x → x.isFinite = true := fun x hx =>
    isFinite_exact (hexact ▸ hx)
  refine ⟨subject, hsource, fun res hres hfailure => ?_, hfinite, fun q hq => ?_, fun s hs => ?_⟩
  · rw [hA.results] at hres
    obtain ⟨m, hm, rfl⟩ := List.mem_map.1 hres
    have hrule : (runFor r subject m).result.rule = m.rule := rule_runOf.1
    rw [hrule, hexact]
    exact numbers_resultOf (hms m hm) hf (fun x => isFinite_exact) hfailure
  · rw [hA.convergence, sweepFor] at hq
    split at hq
    · refine isFinite_sweep (fun m hm => ?_) hf q hq
      obtain ⟨m', hm', rfl⟩ := List.mem_map.1 hm
      exact (kept_runOf kept_finitePositions (hms m' hm')).2
    · cases hq
  · rw [hA.samples] at hs
    obtain ⟨m, hm, hs⟩ := List.mem_flatMap.1 hs
    exact isFinite_samples (hms m hm) hf s hs

end Reports

/-- A rule on fixed abscissae and random positions, with a sweep. -/
theorem calculate_finite_reciprocal :
    let e := Engine.ofConfiguration .initial 7
    let r := Request.ofRules (.expression "1/x") 1.0 2.0 2 [.fixed .midpoint, .monteCarlo] true
    ∃ p, (e.calculate ⟨⟨0⟩, ⟨0, 0⟩⟩ r).1 = .ok p ∧
      (∀ q ∈ p.convergence, ∀ rule v, q.values.get? rule = some v → v.isFinite = true) ∧
      ∀ s ∈ p.samples, s.x.isFinite = true ∧ s.y.isFinite = true := by
  intro e r
  have he : Arises .initial e := .made 7
  have hnone : r.faults e.configuration.catalogue = [] := faults_eq_nil.2
    ⟨by decide +kernel, by decide +kernel, by decide +kernel, by decide +kernel, by decide,
      by decide, by decide,
      (by decide +kernel : (Formula.compile "1/x").isOk = true)⟩
  obtain ⟨p, e', hp⟩ := exists_report ((isOk_calculate he.registered ⟨⟨0⟩, ⟨0, 0⟩⟩ r).2 hnone)
  have hp := congrArg Prod.fst hp
  obtain ⟨-, -, -, -, hconvergence, hsamples⟩ := calculate_finite .initial he hp
  exact ⟨p, hp, hconvergence, hsamples⟩

theorem greatestOn_eq_zero {a b : Float} {steps : ℕ} {d : Float → Option Float}
    (h : ∀ x, raise 0.0 (d x) = 0.0) : greatestOn a b steps d = 0.0 :=
  List.foldl_fixed' (fun _ => h _) _

/-- The cube of the width overflows, and times the derivative of a constant it is NaN. -/
theorem resultOf_one (exact : Option Float) :
    ∃ w, (resultOf (.fixed .trapezoidal) (fun _ => .ok 1.0) 0.0 1e150 4 exact).1 =
      .ofValue (.fixed .trapezoidal) 1e150 (some w) exact ∧ w.isNaN = true := by
  have hvalue : (Method.integrate (fun _ => .ok 1.0) 0.0 1e150 4 (.fixed .trapezoidal)).1 =
      .ok 1e150 := by
    decide +kernel
  have hcheck : (Rule.fixed .trapezoidal).check (0.0 : Float) 1e150 4 = .ok () := by
    decide +kernel
  have hderivative (a b : Float) :
      secondDerivativeBound (fun _ => .ok 1.0) a b fineSteps = 0.0 := by
    refine greatestOn_eq_zero fun x => ?_
    show raise 0.0 (some ((1.0 - 2.0 * 1.0 + 1.0) / (1e-3 * 1e-3))) = (0.0 : Float)
    decide +kernel
  have hbound : ((Method.fixed .trapezoidal).errorBound (fun _ => .ok 1.0) 0.0 1e150 4).1 =
      .ok (some (trapezoidalBound (fun _ => .ok 1.0) 0.0 1e150 4 fineSteps)) := by
    show FixedRule.errorBound .trapezoidal (fun _ => .ok 1.0) 0.0 1e150 4 = _
    rw [FixedRule.errorBound, hcheck]
    rfl
  refine ⟨trapezoidalBound (fun _ => .ok 1.0) 0.0 1e150 4 fineSteps, ?_, ?_⟩
  · rw [resultOf_of_ok hvalue]
    show RuleResult.ofValue _ _ ((Method.fixed .trapezoidal).errorBound _ _ _ _).1.toOption.join _ = _
    rw [hbound]
    rfl
  · rw [trapezoidalBound, hderivative]
    decide +kernel

theorem evaluate_one {c : Catalogue} {subject : Subject}
    (h : Subject.ofSource c (.expression "1") = .ok subject) :
    subject.evaluate = fun _ => .ok 1.0 := by
  rw [Subject.ofSource] at h
  cases hformula : Formula.compile "1" with
  | error cause => rw [hformula] at h; cases h
  | ok formula =>
    rw [hformula] at h
    cases h
    have hone : Expression.ofFolded (Text.foldChars "1".toList) = .ok (.number 1.0) := by
      decide +kernel
    have hbody : formula.body = .number 1.0 :=
      Except.ok.inj ((ofFolded_of_compileAt hformula).symm.trans hone)
    show formula.body.evaluate = _
    rw [hbody]
    rfl

/-- An accepted request whose report has a bound that is NaN. -/
theorem calculate_bound_undefined :
    let e := Engine.ofConfiguration .initial 7
    let r := Request.ofRules (.expression "1") 0.0 1e150 4 [.fixed .trapezoidal] false
    ∃ p, (e.calculate ⟨⟨0⟩, ⟨0, 0⟩⟩ r).1 = .ok p ∧
      ∃ res ∈ p.results, res.failure = none ∧ ∃ w, res.errorBound = some w ∧ w.isNaN = true := by
  intro e r
  have he : Arises .initial e := .made 7
  have hnone : r.faults e.configuration.catalogue = [] := faults_eq_nil.2
    ⟨by decide +kernel, by decide +kernel, by decide +kernel, by decide +kernel, by decide,
      by decide, by decide, (by decide +kernel : (Formula.compile "1").isOk = true)⟩
  obtain ⟨p, e', hp⟩ := exists_report ((isOk_calculate he.registered ⟨⟨0⟩, ⟨0, 0⟩⟩ r).2 hnone)
  obtain ⟨ms, subject, hA⟩ := calculate_eq_ok hp
  refine ⟨p, congrArg Prod.fst hp, ?_⟩
  have hf := evaluate_one hA.source
  obtain ⟨m, hm, hrule⟩ := hA.mem_of_rule (show Rule.fixed .trapezoidal ∈ r.rules by decide)
  obtain rfl : m = .fixed .trapezoidal := by
    cases m with
    | fixed r' => rw [Method.rule, Rule.fixed.injEq] at hrule; rw [hrule]
    | monteCarlo => cases hrule
  obtain ⟨w, hresult, hnan⟩ := resultOf_one (subject.exact 0.0 1e150)
  -- for all bounds, so that the literals are not computed
  have hrun (a b : Float) : (runFor (Request.ofRules (.expression "1") a b 4 [.fixed .trapezoidal]
      false) subject (.fixed .trapezoidal)).result =
        (resultOf (.fixed .trapezoidal) subject.evaluate a b 4 (subject.exact a b)).1 := rfl
  refine ⟨_, hA.results ▸ List.mem_map_of_mem hm, ?_⟩
  rw [hrun, hf, hresult]
  exact ⟨rfl, w, rfl, hnan⟩

end Engine

end Quadrature
