import Mathlib
import Quadrature.Engine.Basic
import Quadrature.Proofs.Analysis.Convergence
import Quadrature.Proofs.Rule.Error

/-!
# Accepted requests

A request that is accepted has been prepared: its parameters pass all checks, every rule
has the method of the registry, and there is a function. `Answer` says how report and
engine come from these.
-/

namespace Quadrature

namespace Engine

variable {e e' : Engine} {r : Request} {p : Report} {stamp : Stamp} {ms : List Method}
  {m : Method} {subject : Subject} {f : Integrand Float} {a b : Float} {n : Nat}
  {exact : Option Float}

/-! ## One rule -/

theorem resultOf_of_error {cause : RuleError Float}
    (h : (m.integrate f a b n).1 = .error cause) : resultOf m f a b n exact =
      (.ofFailure m.rule cause.message, (m.integrate f a b n).2) := by
  have hrule := Method.rule_integrate (f := f) (a := a) (b := b) (n := n) (m := m)
  unfold resultOf
  generalize m.integrate f a b n = r at h hrule
  obtain ⟨outcome, m'⟩ := r
  cases h
  rw [← hrule]

theorem resultOf_of_ok {v : Float} (h : (m.integrate f a b n).1 = .ok v) :
    resultOf m f a b n exact =
      (.ofValue m.rule v ((m.integrate f a b n).2.errorBound f a b n).1.toOption.join exact,
        ((m.integrate f a b n).2.errorBound f a b n).2) := by
  have hrule : ((m.integrate f a b n).2.errorBound f a b n).2.rule = m.rule :=
    Method.rule_errorBound.trans Method.rule_integrate
  unfold resultOf
  rw [← hrule]
  generalize m.integrate f a b n = r at h
  obtain ⟨outcome, m'⟩ := r
  cases h
  rfl

theorem rule_resultOf : (resultOf m f a b n exact).1.rule = m.rule ∧
    (resultOf m f a b n exact).2.rule = m.rule := by
  cases h : (m.integrate f a b n).1 with
  | error cause =>
    rw [resultOf_of_error h]
    exact ⟨rfl, Method.rule_integrate⟩
  | ok v =>
    rw [resultOf_of_ok h]
    exact ⟨rfl, Method.rule_errorBound.trans Method.rule_integrate⟩

theorem runOf_eq : runOf m f a b n exact =
    ⟨(resultOf m f a b n exact).1,
      ((resultOf m f a b n exact).2.samples f a b n).1.toOption.getD [],
      ((resultOf m f a b n exact).2.samples f a b n).2⟩ := rfl

theorem rule_runOf : (runOf m f a b n exact).result.rule = m.rule ∧
    (runOf m f a b n exact).method.rule = m.rule := by
  rw [runOf_eq]
  exact ⟨rule_resultOf.1, Method.rule_samples.trans rule_resultOf.2⟩

theorem rules_runOf : (ms.map fun m => (runOf m f a b n exact).method).map Method.rule =
    ms.map Method.rule := by
  rw [List.map_map]
  exact List.map_congr_left fun m _ => rule_runOf.2

/-- A rule on fixed abscissae has no samples and no state. -/
theorem runOf_fixed (h : m.rule ≠ .monteCarlo) :
    (runOf m f a b n exact).samples = [] ∧ (runOf m f a b n exact).method = m := by
  obtain ⟨r, rfl⟩ := Method.exists_fixed h
  have hm : (resultOf (.fixed r) f a b n exact).2 = .fixed r := by
    cases h : (Method.integrate f a b n (.fixed r)).1 with
    | error cause => rw [resultOf_of_error h]; rfl
    | ok v => rw [resultOf_of_ok h]; rfl
  rw [runOf_eq, hm]
  exact ⟨rfl, rfl⟩

/-- What comes of different rules if only one of them has anything to give. -/
theorem flatMap_eq_of_nodup {β : Type} {g : Method → List β} (hm : m ∈ ms)
    (hnd : (ms.map Method.rule).Nodup) (hg : ∀ m' ∈ ms, m'.rule ≠ m.rule → g m' = []) :
    ms.flatMap g = g m := by
  induction ms with
  | nil => cases hm
  | cons m' ms ih =>
    obtain ⟨hnot, hnd⟩ := List.nodup_cons.1 hnd
    rw [List.flatMap_cons]
    cases hm with
    | head =>
      have hrest : ms.flatMap g = [] := List.flatMap_eq_nil_iff.2 fun m' hm' =>
        hg m' (List.mem_cons_of_mem m hm') fun heq => hnot (heq ▸ List.mem_map_of_mem hm')
      rw [hrest, List.append_nil]
    | tail _ hm =>
      have hne : m'.rule ≠ m.rule := fun heq => hnot (heq ▸ List.mem_map_of_mem hm)
      rw [hg m' List.mem_cons_self hne, List.nil_append]
      exact ih hm hnd fun m'' hm'' => hg m'' (List.mem_cons_of_mem m' hm'')

/-! ## Preparation -/

theorem methods_eq_ok {rules : List Rule} (h : e.methods rules = .ok ms) :
    ms.map Method.rule = rules ∧ ∀ m ∈ ms, e.registry.get? m.rule = some m := by
  have hpairs : List.Forall₂ (fun rule m => e.registry.get? rule = some m) rules ms := by
    refine (mapM_eq_ok.1 h).imp fun rule m hm => ?_
    split at hm
    · next heq => cases hm; exact heq
    · cases hm
  clear h
  induction hpairs with
  | nil => exact ⟨rfl, fun _ hm => by cases hm⟩
  | cons hget _ ih =>
    have hrule := Registry.rule_of_get? hget
    refine ⟨by rw [List.map_cons, ih.1, hrule], List.forall_mem_cons.2 ⟨?_, ih.2⟩⟩
    rw [hrule]
    exact hget

variable [Elementary Float]

/-- What is known of a request for which there are methods and a function. -/
structure Prepared (e : Engine) (r : Request) (ms : List Method) (subject : Subject) : Prop where
  valid : r.validate = .ok ()
  rules : ms.map Method.rule = r.rules
  registered : ∀ m ∈ ms, e.registry.get? m.rule = some m
  checked : ∀ m ∈ ms, m.rule.check r.a r.b r.n = .ok ()
  source : Subject.ofSource e.configuration.catalogue r.function = .ok subject

theorem prepare_eq_ok (h : e.prepare r = .ok (ms, subject)) : Prepared e r ms subject := by
  obtain ⟨_, hvalid, h⟩ := bind_eq_ok.1 h
  obtain ⟨ms', hmethods, h⟩ := bind_eq_ok.1 h
  obtain ⟨_, hchecked, h⟩ := bind_eq_ok.1 h
  obtain ⟨subject', hsource, h⟩ := bind_eq_ok.1 h
  cases h
  obtain ⟨hrules, hregistered⟩ := methods_eq_ok (mapError_eq_ok.1 hmethods)
  exact ⟨mapError_eq_ok.1 hvalid, hrules, hregistered,
    fun m hm => mapError_eq_ok.1 (forM_eq_ok.1 hchecked m hm), hsource⟩

/-! ## Reports -/

/-- The run of a method for a request. -/
def runFor (r : Request) (subject : Subject) (m : Method) : Run :=
  runOf m subject.evaluate r.a r.b r.n (subject.exact r.a r.b)

/-- The sweep for a request, if it asks for one, and the methods after it. -/
def sweepFor (e : Engine) (r : Request) (subject : Subject) (ms : List Method) :
    List ConvergencePoint × List Method :=
  if r.convergence then sweep subject.evaluate r.a r.b e.range.counts ms else ([], ms)

/-- The report on a request that has been prepared, and the engine after it. -/
structure Answer (e : Engine) (r : Request) (p : Report) (e' : Engine) (ms : List Method)
    (subject : Subject) : Prop extends Prepared e r ms subject where
  results : p.results = ms.map fun m => (runFor r subject m).result
  samples : p.samples = ms.flatMap fun m => (runFor r subject m).samples
  convergence : p.convergence =
    (e.sweepFor r subject (ms.map fun m => (runFor r subject m).method)).1
  after : e' = { e with registry :=
    (e.sweepFor r subject (ms.map fun m => (runFor r subject m).method)).2.foldl .insert e.registry }

theorem calculate_eq_ok (h : e.calculate stamp r = (.ok p, e')) :
    ∃ ms subject, Answer e r p e' ms subject := by
  unfold calculate at h
  cases hprepare : e.prepare r with
  | error cause => rw [hprepare] at h; cases h
  | ok prepared =>
    obtain ⟨ms, subject⟩ := prepared
    rw [hprepare] at h
    cases h
    refine ⟨ms, subject, prepare_eq_ok hprepare, ?_, ?_, ?_, ?_⟩
    · exact List.map_map
    · exact List.flatMap_map ..
    · simp only [sweepFor, List.map_map]
      rfl
    · simp only [sweepFor, List.map_map]
      rfl

theorem exists_report (h : (e.calculate stamp r).1.isOk = true) :
    ∃ p e', e.calculate stamp r = (.ok p, e') := by
  rcases hcalc : e.calculate stamp r with ⟨cause | p, e'⟩
  · rw [hcalc] at h
    cases h
  · exact ⟨p, e', rfl⟩

namespace Prepared

theorem nodup_rules (h : Prepared e r ms subject) : (ms.map Method.rule).Nodup := by
  rw [h.rules]
  exact r.nodup_rules

theorem mem_of_rule (h : Prepared e r ms subject) {rule : Rule} (hrule : rule ∈ r.rules) :
    ∃ m ∈ ms, m.rule = rule := by
  rw [← h.rules] at hrule
  exact List.mem_map.1 hrule

/-- Requests to one engine get the same method for the same rule. -/
theorem eq_of_rule {r' : Request} {ms' : List Method} {subject' : Subject} {m' : Method}
    (h : Prepared e r ms subject) (h' : Prepared e r' ms' subject') (hm : m ∈ ms) (hm' : m' ∈ ms')
    (hrule : m.rule = m'.rule) : m = m' := by
  have hget := h.registered m hm
  rw [hrule, h'.registered m' hm'] at hget
  exact (Option.some.inj hget).symm

end Prepared

namespace Answer

theorem result? (h : Answer e r p e' ms subject) (hm : m ∈ ms) :
    p.result? m.rule = some (runFor r subject m).result := by
  rw [Report.result?, h.results]
  cases hfind : (ms.map fun m => (runFor r subject m).result).find? (·.rule = m.rule) with
  | none =>
    have hnone := List.find?_eq_none.1 hfind _ (List.mem_map_of_mem hm)
    simp [runFor, rule_runOf.1] at hnone
  | some res =>
    obtain ⟨m', hm', rfl⟩ := List.mem_map.1 (List.mem_of_find?_eq_some hfind)
    have hrule : (runFor r subject m').result.rule = m.rule := by
      simpa using List.find?_some hfind
    rw [runFor, rule_runOf.1] at hrule
    rw [h.eq_of_rule h.toPrepared hm' hm hrule]

/-- All samples come from the method for Monte Carlo. -/
theorem samples_eq (h : Answer e r p e' ms subject) (hm : m ∈ ms) (hrule : m.rule = .monteCarlo) :
    p.samples = (runFor r subject m).samples := by
  rw [h.samples]
  refine flatMap_eq_of_nodup hm h.nodup_rules fun m' _ hne => ?_
  rw [hrule] at hne
  exact (runOf_fixed hne).1

/-- In a sweep a rule runs the course of its method, from where the method is after its run. -/
theorem values_eq (h : Answer e r p e' ms subject) (hm : m ∈ ms) :
    p.convergence.map (fun q => (q.n, q.values.get? m.rule)) =
      if r.convergence then
        course subject.evaluate r.a r.b e.range.counts (runFor r subject m).method
      else [] := by
  rw [h.convergence, sweepFor]
  split
  · have hmem : (runFor r subject m).method ∈ ms.map fun m => (runFor r subject m).method :=
      List.mem_map_of_mem hm
    have hnd : ((ms.map fun m => (runFor r subject m).method).map Method.rule).Nodup := by
      unfold runFor
      rw [rules_runOf]
      exact h.nodup_rules
    rw [← rule_runOf.2]
    exact sweep_course hmem hnd
  · rfl

end Answer

end Engine

end Quadrature
