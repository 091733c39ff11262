import Quadrature.Proofs.Analysis.Sweep
import Quadrature.Proofs.Engine.Independence
import Quadrature.Proofs.Engine.States
import Quadrature.Proofs.Rule.Outcome

/-!
# Which requests are accepted

A request is refused exactly if something is wrong with it, and then for the first thing in
the order of `Request.faults`. A report has an entry for each of the distinct rules; its
failures come from the integrand or from a result that is not finite, never from a
parameter, and it has a point for every count of the settings if a sweep was asked for.
-/

namespace Quadrature

/-! ## Rules that fail -/

section Failures

variable {f : Integrand Float} {a b : Float} {n : Nat} {cause : RuleError Float}

/-- What can go wrong once the parameters are admitted. -/
def RuleError.IsOutcome (rule : Rule) : RuleError Float → Prop
  | .evaluation _ _ => True
  | .nonFinite rule' => rule' = rule
  | .parameter _ => False

theorem Method.integrate_error {m : Method} (hcheck : m.rule.check a b n = .ok ())
    (h : (m.integrate f a b n).1 = .error cause) : cause.IsOutcome m.rule := by
  have houtcome := m.outcome_integrate f a b n
  rw [h] at houtcome
  cases houtcome with
  | refused he =>
    rw [hcheck] at he
    cases he
  | failed => trivial
  | nonFinite => rfl

end Failures

/-! ## Requests -/

/-- What is wrong with a function source. -/
def FunctionSource.faults [Elementary Float] (c : Catalogue) : FunctionSource → List EngineError
  | .expression text =>
    match Formula.compile text with
    | .ok _ => []
    | .error cause => [.compile cause]
  | .predefined name => if c.contains name then [] else [.catalogue (.unknownName name)]

/-- An expression has to be a formula, a name to be one of the catalogue. -/
def FunctionSource.IsKnown [Elementary Float] (c : Catalogue) : FunctionSource → Prop
  | .expression text => (Formula.compile text).isOk = true
  | .predefined name => c.contains name = true

/-- What is wrong with a request, in the order in which it is found. -/
def Request.faults [Elementary Float] (c : Catalogue) (r : Request) : List EngineError :=
  (if r.a.isFinite && r.b.isFinite && r.a < r.b && (r.b - r.a).isFinite then []
    else [.parameter (.invalidBounds r.a r.b)]) ++
  (if r.n = 0 then [.parameter .zeroPanels] else []) ++
  (if r.rules = [] then [.parameter .noRules] else []) ++
  (if .fixed .simpsonThreeEighths ∈ r.rules ∧ r.n < 3 then
    [.parameter (.tooFewPanels (.fixed .simpsonThreeEighths) r.n 3)] else []) ++
  r.function.faults c

namespace Engine

variable {e : Engine} {r : Request} {a b : Float} {n : Nat} {m : Method} {ms : List Method}

theorem exists_methods (h : ∀ rule, (e.registry.get? rule).isSome = true) (rules : List Rule) :
    ∃ ms, e.methods rules = .ok ms := by
  induction rules with
  | nil => exact ⟨[], rfl⟩
  | cons rule rules ih =>
    obtain ⟨ms, hms⟩ := ih
    obtain ⟨m, hm⟩ := Option.isSome_iff_exists.1 (h rule)
    refine ⟨m :: ms, ?_⟩
    rw [methods, mapM_eq_ok] at hms ⊢
    exact .cons (by rw [hm]) hms

/-- Only the three-eighths rule asks for more than one panel. -/
theorem check_least (hb : checkBounds a b = .ok ()) (hn : n ≠ 0) :
    (m.rule.check a b n).mapError EngineError.parameter =
      if m.rule = .fixed .simpsonThreeEighths ∧ n < 3 then
        .error (.parameter (.tooFewPanels (.fixed .simpsonThreeEighths) n 3))
      else .ok () := by
  rw [Rule.check_of_bounds hb, if_neg hn]
  by_cases hrule : m.rule = .fixed .simpsonThreeEighths
  · have hmin : m.rule.minPanels = 3 := by rw [hrule]; rfl
    rw [hmin]
    by_cases h3 : n < 3
    · rw [if_pos h3, if_pos ⟨hrule, h3⟩, hrule]
      rfl
    · rw [if_neg h3, if_neg fun h => h3 h.2]
      rfl
  · have hmin : m.rule.minPanels = 1 := by
      cases h : m.rule with
      | monteCarlo => rfl
      | fixed r =>
        cases r with
        | simpsonThreeEighths => exact absurd h hrule
        | trapezoidal | midpoint | simpsonOneThird => rfl
    rw [hmin, if_neg (by omega), if_neg fun h => hrule h.1]
    rfl

theorem forM_check (hb : checkBounds a b = .ok ()) (hn : n ≠ 0) :
    ms.forM (fun m => (m.rule.check a b n).mapError EngineError.parameter) =
      if .fixed .simpsonThreeEighths ∈ ms.map Method.rule ∧ n < 3 then
        .error (.parameter (.tooFewPanels (.fixed .simpsonThreeEighths) n 3))
      else .ok () := by
  induction ms with
  | nil => rfl
  | cons m ms ih =>
    rw [List.forM, check_least hb hn, ih]
    by_cases hm : m.rule = .fixed .simpsonThreeEighths ∧ n < 3
    · have hall : .fixed .simpsonThreeEighths ∈ (m :: ms).map Method.rule ∧ n < 3 :=
        ⟨List.mem_cons.2 (.inl hm.1.symm), hm.2⟩
      rw [if_pos hm, if_pos hall]
      rfl
    · rw [if_neg hm]
      show (if _ then _ else _) = _
      refine if_congr ?_ rfl rfl
      rw [List.map_cons, List.mem_cons]
      constructor
      · exact fun h => ⟨.inr h.1, h.2⟩
      · exact fun h => ⟨h.1.resolve_left fun heq => hm ⟨heq.symm, h.2⟩, h.2⟩

variable [Elementary Float] {c : Catalogue}

/-- A function source is known and without fault, or it has the fault it is refused for. -/
theorem ofSource_faults (source : FunctionSource) :
    (∃ subject, Subject.ofSource c source = .ok subject ∧ source.IsKnown c ∧
        source.faults c = []) ∨
      ∃ cause, Subject.ofSource c source = .error cause ∧ ¬ source.IsKnown c ∧
        source.faults c = [cause] ∧ ∀ q, cause ≠ .parameter q := by
  cases source with
  | expression text =>
    rw [FunctionSource.faults, FunctionSource.IsKnown, Subject.ofSource]
    cases Formula.compile text with
    | ok f => exact .inl ⟨_, rfl, rfl, rfl⟩
    | error cause => exact .inr ⟨_, rfl, Bool.false_ne_true, rfl, fun q h => by cases h⟩
  | predefined name =>
    rw [FunctionSource.faults, FunctionSource.IsKnown, Subject.ofSource, Catalogue.get,
      Catalogue.contains, ← Std.TreeMap.isSome_getElem?_eq_contains]
    cases c.entries[name]? with
    | some entry => exact .inl ⟨_, rfl, rfl, rfl⟩
    | none => exact .inr ⟨_, rfl, Bool.false_ne_true, rfl, fun q h => by cases h⟩

/-- An engine with all rules refuses a request for its first fault. -/
theorem prepare_faults (h : ∀ rule, (e.registry.get? rule).isSome = true) (r : Request) :
    (∃ prepared, e.prepare r = .ok prepared ∧ r.faults e.configuration.catalogue = []) ∨
      ∃ cause, e.prepare r = .error cause ∧
        (r.faults e.configuration.catalogue).head? = some cause := by
  by_cases hb : (r.a.isFinite && r.b.isFinite && r.a < r.b && (r.b - r.a).isFinite) = true
  swap
  · have hcheck : checkBounds r.a r.b = .error (.invalidBounds r.a r.b) := if_neg hb
    refine .inr ⟨.parameter (.invalidBounds r.a r.b), ?_, ?_⟩
    · rw [prepare, Request.validate, hcheck]
      rfl
    · rw [Request.faults, if_neg hb]
      rfl
  have hcheck : checkBounds r.a r.b = .ok () := if_pos hb
  by_cases hn : r.n = 0
  · refine .inr ⟨.parameter .zeroPanels, ?_, ?_⟩
    · rw [prepare, Request.validate, hcheck, if_pos hn]
      rfl
    · rw [Request.faults, if_pos hb, if_pos hn]
      rfl
  by_cases hrules : r.rules = []
  · refine .inr ⟨.parameter .noRules, ?_, ?_⟩
    · rw [prepare, Request.validate, hcheck, if_neg hn, if_pos hrules]
      rfl
    · rw [Request.faults, if_pos hb, if_neg hn, if_pos hrules]
      rfl
  obtain ⟨ms, hms⟩ := exists_methods h r.rules
  have hvalid : r.validate = .ok () := by
    rw [Request.validate, hcheck, if_neg hn, if_neg hrules]
    rfl
  have hprepare : e.prepare r = (ms.forM fun m =>
      (m.rule.check r.a r.b r.n).mapError EngineError.parameter).bind fun _ =>
        (Subject.ofSource e.configuration.catalogue r.function).map (ms, ·) := by
    rw [prepare, hvalid, hms]
    rfl
  rw [forM_check hcheck hn, (methods_eq_ok hms).1] at hprepare
  by_cases hleast : .fixed .simpsonThreeEighths ∈ r.rules ∧ r.n < 3
  · refine .inr ⟨.parameter (.tooFewPanels (.fixed .simpsonThreeEighths) r.n 3), ?_, ?_⟩
    · rw [hprepare, if_pos hleast]
      rfl
    · rw [Request.faults, if_pos hb, if_neg hn, if_neg hrules, if_pos hleast]
      rfl
  have hfaults : r.faults e.configuration.catalogue =
      r.function.faults e.configuration.catalogue := by
    rw [Request.faults, if_pos hb, if_neg hn, if_neg hrules, if_neg hleast]
    rfl
  rw [if_neg hleast] at hprepare
  rw [hprepare, hfaults]
  rcases ofSource_faults r.function with ⟨subject, hsource, -, hnone⟩ | ⟨cause, hsource, -, hone, -⟩
  · rw [hsource]
    exact .inl ⟨_, rfl, hnone⟩
  · rw [hsource]
    exact .inr ⟨cause, rfl, by rw [hone]; rfl⟩

/-- A request is answered exactly if nothing is wrong with it. -/
theorem calculate_faults (h : ∀ rule, (e.registry.get? rule).isSome = true) (stamp : Stamp)
    (r : Request) :
    ((e.calculate stamp r).1.isOk = true ∧ r.faults e.configuration.catalogue = []) ∨
      ∃ cause, (e.calculate stamp r).1 = .error cause ∧
        (r.faults e.configuration.catalogue).head? = some cause := by
  unfold calculate
  rcases prepare_faults h r with ⟨prepared, hprepare, hnone⟩ | ⟨cause, hprepare, hfirst⟩
  · rw [hprepare]
    exact .inl ⟨rfl, hnone⟩
  · rw [hprepare]
    exact .inr ⟨cause, rfl, hfirst⟩

theorem isOk_calculate (h : ∀ rule, (e.registry.get? rule).isSome = true) (stamp : Stamp)
    (r : Request) :
    (e.calculate stamp r).1.isOk = true ↔ r.faults e.configuration.catalogue = [] := by
  rcases calculate_faults h stamp r with ⟨hok, hnone⟩ | ⟨cause, herror, hfirst⟩
  · exact ⟨fun _ => hnone, fun _ => hok⟩
  · rw [herror]
    constructor
    · intro h
      cases h
    · intro h
      rw [h] at hfirst
      cases hfirst

theorem error_calculate (h : ∀ rule, (e.registry.get? rule).isSome = true) (stamp : Stamp)
    (r : Request) (cause : EngineError) :
    (e.calculate stamp r).1 = .error cause ↔
      (r.faults e.configuration.catalogue).head? = some cause := by
  rcases calculate_faults h stamp r with ⟨hok, hnone⟩ | ⟨cause', herror, hfirst⟩
  · rw [hnone]
    refine ⟨fun h => ?_, fun h => by cases h⟩
    rw [h] at hok
    cases hok
  · rw [herror, hfirst, Except.error.injEq, Option.some.injEq]

/-- Nothing is wrong with a request exactly if its parameters are in order and there is a
function. -/
theorem faults_eq_nil : r.faults c = [] ↔
    r.a.isFinite = true ∧ r.b.isFinite = true ∧ r.a < r.b ∧ (r.b - r.a).isFinite = true ∧
      1 ≤ r.n ∧ r.rules ≠ [] ∧ (.fixed .simpsonThreeEighths ∈ r.rules → 3 ≤ r.n) ∧
        r.function.IsKnown c := by
  have hfunction : r.function.faults c = [] ↔ r.function.IsKnown c := by
    rcases ofSource_faults (c := c) r.function with ⟨_, -, hknown, hnone⟩ | ⟨_, -, hnot, hone, -⟩
    · exact ⟨fun _ => hknown, fun _ => hnone⟩
    · refine ⟨fun h => ?_, fun h => absurd h hnot⟩
      rw [hone] at h
      cases h
  have hnone {p : Prop} [Decidable p] {x : EngineError} :
      (if p then [] else [x]) = [] ↔ p := by split <;> simp [*]
  have hsome {p : Prop} [Decidable p] {x : EngineError} :
      (if p then [x] else []) = [] ↔ ¬ p := by split <;> simp [*]
  simp only [Request.faults, List.append_eq_nil_iff, hnone, hsome, hfunction, Bool.and_eq_true,
    decide_eq_true_eq, not_and, not_lt, Nat.one_le_iff_ne_zero, and_assoc, ne_eq]

theorem not_mem_faults {rule : Rule} : .parameter (.unregistered rule) ∉ r.faults c := by
  have hsome {p : Prop} [Decidable p] {x y : EngineError} (h : x ∈ if p then [y] else []) :
      x = y := by
    split at h
    · exact List.mem_singleton.1 h
    · cases h
  intro h
  simp only [Request.faults, List.mem_append, or_assoc] at h
  rcases h with h | h | h | h | h
  · split at h
    · cases h
    · cases List.mem_singleton.1 h
  · cases hsome h
  · cases hsome h
  · cases hsome h
  · rcases ofSource_faults (c := c) r.function with ⟨_, -, -, hnone⟩ | ⟨cause, -, -, hone, hne⟩
    · rw [hnone] at h
      cases h
    · rw [hone] at h
      exact hne _ (List.mem_singleton.1 h).symm

end Engine

/-! ## Reports -/

/-- An entry is a failure without numbers, or it has a value, an absolute error if there is
an exact value and a relative one if that is not zero. -/
def RuleResult.Fits (res : RuleResult) (exact : Option Float) : Prop :=
  (res.failure.isSome = true ∧ res.value = none ∧ res.errorBound = none ∧
      res.absoluteError = none ∧ res.relativeError = none) ∨
    (res.failure = none ∧ res.value.isSome = true ∧
      res.absoluteError.isSome = exact.isSome ∧
        (res.relativeError.isSome = true ↔ ∃ x, exact = some x ∧ (x == 0.0) = false))

theorem RuleResult.fits_ofValue (rule : Rule) (v : Float) (bound exact : Option Float) :
    (RuleResult.ofValue rule v bound exact).Fits exact := by
  refine .inr ⟨rfl, rfl, Option.isSome_map, ?_⟩
  show ((exact.filter (· != 0.0)).map _).isSome = true ↔ _
  rw [Option.isSome_map]
  cases exact with
  | none => simp
  | some x => simp [Option.filter, bne]

namespace Engine

section Entries

variable [Elementary Float] {e e' : Engine} {r : Request} {p : Report} {stamp : Stamp}
  {ms : List Method} {subject : Subject} {m : Method}

theorem exact_of_calculate (h : e.calculate stamp r = (.ok p, e'))
    (hsource : Subject.ofSource e.configuration.catalogue r.function = .ok subject) :
    p.exact = subject.exact r.a r.b := by
  unfold calculate at h
  cases hprepare : e.prepare r with
  | error cause => rw [hprepare] at h; cases h
  | ok prepared =>
    have hsubject := (prepare_eq_ok hprepare).source
    rw [hsource] at hsubject
    rw [hprepare] at h
    cases hsubject
    cases h
    rfl

namespace Answer

theorem rules_results (h : Answer e r p e' ms subject) : p.results.map RuleResult.rule = r.rules := by
  rw [h.results, List.map_map, ← h.rules]
  exact List.map_congr_left fun m _ => rule_runOf.1

theorem counts (h : Answer e r p e' ms subject) :
    p.convergence.map ConvergencePoint.n = if r.convergence then e.range.counts else [] := by
  rw [h.convergence, sweepFor]
  split
  · exact counts_sweep _ _
  · rfl

/-- An entry is a result, or the message of the failure of its method. -/
theorem entry (h : Answer e r p e' ms subject) {res : RuleResult} (hres : res ∈ p.results) :
    (∃ m v bound, e.registry.get? res.rule = some m ∧
        (m.integrate subject.evaluate r.a r.b r.n).1 = .ok v ∧
          res = .ofValue res.rule v bound (subject.exact r.a r.b)) ∨
      ∃ m cause, e.registry.get? res.rule = some m ∧
        (m.integrate subject.evaluate r.a r.b r.n).1 = .error cause ∧
          cause.IsOutcome res.rule ∧ res = .ofFailure res.rule cause.message := by
  rw [h.results] at hres
  obtain ⟨m, hm, rfl⟩ := List.mem_map.1 hres
  have hrule : (runFor r subject m).result.rule = m.rule := rule_runOf.1
  rw [hrule]
  show (∃ _ _ _, _ ∧ _ ∧ (resultOf m _ _ _ _ _).1 = _) ∨ ∃ _ _, _ ∧ _ ∧ _ ∧ (resultOf m _ _ _ _ _).1 = _
  cases hint : (m.integrate subject.evaluate r.a r.b r.n).1 with
  | ok v =>
    rw [resultOf_of_ok hint]
    exact .inl ⟨m, v, _, h.registered m hm, hint, rfl⟩
  | error cause =>
    rw [resultOf_of_error hint]
    exact .inr ⟨m, cause, h.registered m hm, hint,
      Method.integrate_error (h.checked m hm) hint, rfl⟩

theorem fits (h : Answer e r p e' ms subject) {res : RuleResult} (hres : res ∈ p.results) :
    res.Fits (subject.exact r.a r.b) := by
  rcases h.entry hres with ⟨m, v, bound, -, -, hres⟩ | ⟨m, cause, -, -, -, hres⟩
  · rw [hres]
    exact RuleResult.fits_ofValue _ _ _ _
  · rw [hres]
    exact .inl ⟨rfl, rfl, rfl, rfl, rfl⟩

/-- A value is the integral of the method, and the errors are those of this value. -/
theorem value (h : Answer e r p e' ms subject) {res : RuleResult} (hres : res ∈ p.results)
    {v : Float} (hvalue : res.value = some v) :
    ∃ m bound, e.registry.get? res.rule = some m ∧
      (m.integrate subject.evaluate r.a r.b r.n).1 = .ok v ∧
        res = .ofValue res.rule v bound (subject.exact r.a r.b) := by
  rcases h.entry hres with ⟨m, v', bound, hm, hint, hres⟩ | ⟨m, cause, -, -, -, hres⟩
  · rw [hres] at hvalue
    obtain rfl : v' = v := Option.some.inj hvalue
    exact ⟨m, bound, hm, hint, hres⟩
  · rw [hres] at hvalue
    cases hvalue

/-- A failure is the message of its method, and the method had no complaint about the
parameters. -/
theorem failure (h : Answer e r p e' ms subject) {res : RuleResult} (hres : res ∈ p.results)
    {message : String} (hfailure : res.failure = some message) :
    ∃ m cause, e.registry.get? res.rule = some m ∧
      (m.integrate subject.evaluate r.a r.b r.n).1 = .error cause ∧ message = cause.message ∧
        ∀ q, cause ≠ .parameter q := by
  rcases h.entry hres with ⟨m, v, bound, -, -, hres⟩ | ⟨m, cause, hm, hint, houtcome, hres⟩
  · rw [hres] at hfailure
    cases hfailure
  · refine ⟨m, cause, hm, hint, ?_, fun q hq => ?_⟩
    · rw [hres] at hfailure
      exact (Option.some.inj hfailure).symm
    · subst hq
      exact houtcome

end Answer

end Entries

/-- Which requests are accepted and what their reports contain: an entry for each of the
distinct rules in turn, whose value is what the integral of its method gives, or whose failure
is the message of that integral, and a point for each count if a sweep was asked for. -/
theorem calculate_accepted [Elementary Float] {c : Configuration} {e : Engine}
    (he : Arises c e) (stamp : Stamp) (function : FunctionSource) (a b : Float) (n : Nat)
    (rules : List Rule) (convergence : Bool) :
    let r := Request.ofRules function a b n rules convergence
    ((e.calculate stamp r).1.isOk = true ↔
      a.isFinite = true ∧ b.isFinite = true ∧ a < b ∧ (b - a).isFinite = true ∧ 1 ≤ n ∧
        rules ≠ [] ∧ (.fixed .simpsonThreeEighths ∈ rules → 3 ≤ n) ∧
          function.IsKnown c.catalogue) ∧
      (∀ cause, (e.calculate stamp r).1 = .error cause ↔
        (r.faults c.catalogue).head? = some cause) ∧
      (∀ rule, (e.calculate stamp r).1 ≠ .error (.parameter (.unregistered rule))) ∧
      ∀ p, (e.calculate stamp r).1 = .ok p →
        p.results.map RuleResult.rule = rules.eraseDups ∧
        (∀ res ∈ p.results, res.Fits p.exact) ∧
        (∃ subject, Subject.ofSource c.catalogue function = .ok subject ∧
          (∀ res ∈ p.results, ∀ v, res.value = some v →
            ∃ m bound, e.registry.get? res.rule = some m ∧
              (m.integrate subject.evaluate a b n).1 = .ok v ∧
                res = .ofValue res.rule v bound p.exact) ∧
          ∀ res ∈ p.results, ∀ message, res.failure = some message →
            ∃ m cause, e.registry.get? res.rule = some m ∧
              (m.integrate subject.evaluate a b n).1 = .error cause ∧ message = cause.message ∧
                ∀ q, cause ≠ .parameter q) ∧
        p.convergence.map ConvergencePoint.n =
          if convergence then c.settings.range.counts else [] := by
  intro r
  obtain ⟨hconfiguration, hrange⟩ := he.constant
  have hcause := error_calculate he.registered stamp r
  have hok := isOk_calculate he.registered stamp r
  rw [hconfiguration] at hcause hok
  refine ⟨?_, hcause, fun rule h => ?_, fun p hp => ?_⟩
  · have hmem (rule : Rule) : rule ∈ r.rules ↔ rule ∈ rules := Rule.mem_distinct
    have hnil : r.rules = [] ↔ rules = [] := by
      rw [List.eq_nil_iff_forall_not_mem, List.eq_nil_iff_forall_not_mem]
      exact forall_congr' fun rule => not_congr (hmem rule)
    rw [hok, faults_eq_nil, ne_eq, hnil, hmem]
    exact Iff.rfl
  · exact not_mem_faults (List.mem_of_head? ((hcause _).1 h))
  · have hcalc : e.calculate stamp r = (.ok p, (e.calculate stamp r).2) := Prod.ext hp rfl
    obtain ⟨ms, subject, hA⟩ := calculate_eq_ok hcalc
    have hsource := hA.source
    rw [hconfiguration] at hsource
    have hexact := exact_of_calculate hcalc hA.source
    refine ⟨?_, fun res hres => ?_, ⟨subject, hsource, fun res hres v hv => ?_,
      fun res hres message => hA.failure hres⟩, ?_⟩
    · rw [hA.rules_results]
      exact Rule.distinct_eq_eraseDups rules
    · rw [hexact]
      exact hA.fits hres
    · rw [hexact]
      exact hA.value hres hv
    · rw [hA.counts, hrange]
      rfl

/-- A rule that is named twice and one that fails, at the counts of a sweep. -/
theorem calculate_accepted_square :
    let e := Engine.ofConfiguration .initial 7
    let r := Request.ofRules (.expression "1/x") 0.0 1.0 2
      [.fixed .midpoint, .fixed .trapezoidal, .fixed .midpoint] true
    ∃ p, (e.calculate ⟨⟨0⟩, ⟨0, 0⟩⟩ r).1 = .ok p ∧
      p.results.map RuleResult.rule = [.fixed .midpoint, .fixed .trapezoidal] ∧
      (∀ res ∈ p.results, res.Fits p.exact) ∧
      p.convergence.map ConvergencePoint.n = CountRange.default.counts := by
  intro e r
  obtain ⟨haccepted, -, -, hreport⟩ := calculate_accepted (c := .initial) (.made 7)
    ⟨⟨0⟩, ⟨0, 0⟩⟩ (.expression "1/x") 0.0 1.0 2
    [.fixed .midpoint, .fixed .trapezoidal, .fixed .midpoint] true
  obtain ⟨p, e', hp⟩ := exists_report <| haccepted.2
    ⟨by rfl, by rfl, by decide +kernel, by decide +kernel, by decide, by decide, by decide,
      (by decide +kernel : (Formula.compile "1/x").isOk = true)⟩
  have hp := congrArg Prod.fst hp
  obtain ⟨hrules, hfits, -, hcounts⟩ := hreport p hp
  exact ⟨p, hp, hrules.trans (by decide), hfits, hcounts⟩

end Engine

end Quadrature
