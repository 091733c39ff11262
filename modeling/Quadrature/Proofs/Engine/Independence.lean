import Quadrature.Proofs.Engine.Answer
import Quadrature.Proofs.Request

/-!
# Rules beside each other

What a report says of a rule does not depend on the other rules of the request or on their
order. The rules of a request may as well have their turns one after another on the registry
they share (`calculate_in_turn`).
-/

namespace Quadrature

namespace Engine

/-! ## One after another -/

/-- The rules of a request that is answered, one after another on the registry they share:
first each has its run, then, if there is a sweep, its turn at every count. -/
theorem calculate_in_turn [Elementary Float] {e e' : Engine} {stamp : Stamp} {r : Request}
    {p : Report} (h : e.calculate stamp r = (.ok p, e')) :
    ∃ subject, Subject.ofSource e.configuration.catalogue r.function = .ok subject ∧
      let runs := e.registry.inTurn (fun m => (runFor r subject m, (runFor r subject m).method))
        r.rules
      p.results = runs.1.map Run.result ∧ p.samples = runs.1.flatMap Run.samples ∧
        (p.convergence, e'.registry) =
          if r.convergence then runs.2.sweep subject.evaluate r.a r.b r.rules e.range.counts
          else ([], runs.2) := by
  obtain ⟨ms, subject, hA⟩ := calculate_eq_ok h
  refine ⟨subject, hA.source, ?_⟩
  have hturn := Registry.inTurn_eq (fun m => (runFor r subject m, (runFor r subject m).method))
    (fun _ => rule_runOf.2) hA.registered hA.nodup_rules
  rw [hA.rules] at hturn
  dsimp only
  rw [hturn]
  refine ⟨?_, ?_, ?_⟩
  · rw [hA.results, List.map_map]; rfl
  · rw [hA.samples, List.flatMap_map]
  · rw [hA.convergence, hA.after, sweepFor]
    generalize hms' : (ms.map fun m => (runFor r subject m).method) = ms'
    have hrules : ms'.map Method.rule = r.rules := by
      rw [← hms', ← hA.rules]
      exact rules_runOf
    have hnd : (ms'.map Method.rule).Nodup := hrules ▸ r.nodup_rules
    split
    · have hsweep : (ms'.foldl .insert e.registry).sweep subject.evaluate r.a r.b
          (ms'.map Method.rule) e.range.counts = _ :=
        Registry.sweep_eq (fun m hm => Registry.get?_foldl_insert hm hnd) hnd
      rw [Registry.foldl_insert_foldl_insert rules_sweep, hrules] at hsweep
      exact hsweep.symm
    · rfl

/-! ## Two requests -/

/-- Two requests to one engine that differ in their rules only, each of them given in any
order and any number of times: a rule of both has the same result in both reports and the
same value, or none, at every count of the sweep. The samples are the same if Monte Carlo
is a rule of both. By `calculate_in_turn` this is so of rules that share their registry. -/
theorem calculate_rule_independent [Elementary Float] {e e₁ e₂ : Engine} {stamp₁ stamp₂ : Stamp}
    {function : FunctionSource} {a b : Float} {n : Nat} {convergence : Bool}
    {rs₁ rs₂ : List Rule} {p₁ p₂ : Report}
    (h₁ : e.calculate stamp₁ (.ofRules function a b n rs₁ convergence) = (.ok p₁, e₁))
    (h₂ : e.calculate stamp₂ (.ofRules function a b n rs₂ convergence) = (.ok p₂, e₂)) :
    (∀ rule ∈ rs₁, rule ∈ rs₂ →
        (∃ res, p₁.result? rule = some res ∧ p₂.result? rule = some res) ∧
          p₁.convergence.map (fun q => (q.n, q.values.get? rule)) =
            p₂.convergence.map (fun q => (q.n, q.values.get? rule))) ∧
      (.monteCarlo ∈ rs₁ → .monteCarlo ∈ rs₂ → p₁.samples = p₂.samples) := by
  obtain ⟨ms₁, subject, hA₁⟩ := calculate_eq_ok h₁
  obtain ⟨ms₂, subject₂, hA₂⟩ := calculate_eq_ok h₂
  obtain rfl : subject = subject₂ := Except.ok.inj (hA₁.source.symm.trans hA₂.source)
  have hcommon : ∀ rule ∈ rs₁, rule ∈ rs₂ → ∃ m ∈ ms₁, m ∈ ms₂ ∧ m.rule = rule := by
    intro rule hrs₁ hrs₂
    obtain ⟨m, hm, hrule⟩ := hA₁.mem_of_rule (Rule.mem_distinct.2 hrs₁)
    obtain ⟨m', hm', hrule'⟩ := hA₂.mem_of_rule (Rule.mem_distinct.2 hrs₂)
    obtain rfl : m = m' := hA₁.eq_of_rule hA₂.toPrepared hm hm' (hrule.trans hrule'.symm)
    exact ⟨m, hm, hm', hrule⟩
  refine ⟨fun rule hrs₁ hrs₂ => ?_, fun hrs₁ hrs₂ => ?_⟩
  · obtain ⟨m, hm₁, hm₂, rfl⟩ := hcommon rule hrs₁ hrs₂
    refine ⟨⟨_, hA₁.result? hm₁, hA₂.result? hm₂⟩, ?_⟩
    exact (hA₁.values_eq hm₁).trans (hA₂.values_eq hm₂).symm
  · obtain ⟨m, hm₁, hm₂, hrule⟩ := hcommon .monteCarlo hrs₁ hrs₂
    exact (hA₁.samples_eq hm₁ hrule).trans (hA₂.samples_eq hm₂ hrule).symm

/-- Monte Carlo before another rule, and after it among more. -/
theorem calculate_rule_independent_square :
    let e := Engine.ofConfiguration .initial 7
    let request (rs : List Rule) := Request.ofRules (.expression "x*x") 0.0 1.0 2 rs true
    let rs₁ : List Rule := [.monteCarlo, .fixed .midpoint]
    let rs₂ : List Rule := [.fixed .trapezoidal, .fixed .midpoint, .monteCarlo, .fixed .midpoint]
    ∃ p₁ e₁ p₂ e₂, e.calculate ⟨⟨0⟩, ⟨0, 0⟩⟩ (request rs₁) = (.ok p₁, e₁) ∧
      e.calculate ⟨⟨1⟩, ⟨0, 0⟩⟩ (request rs₂) = (.ok p₂, e₂) ∧
      p₁.result? (.fixed .midpoint) = p₂.result? (.fixed .midpoint) ∧
      p₁.result? .monteCarlo = p₂.result? .monteCarlo ∧ p₁.samples = p₂.samples := by
  intro e request rs₁ rs₂
  obtain ⟨p₁, e₁, h₁⟩ := exists_report
    (show (e.calculate ⟨⟨0⟩, ⟨0, 0⟩⟩ (request rs₁)).1.isOk = true by decide +kernel)
  obtain ⟨p₂, e₂, h₂⟩ := exists_report
    (show (e.calculate ⟨⟨1⟩, ⟨0, 0⟩⟩ (request rs₂)).1.isOk = true by decide +kernel)
  obtain ⟨hrules, hsamples⟩ := calculate_rule_independent h₁ h₂
  obtain ⟨⟨_, hmid₁, hmid₂⟩, -⟩ := hrules (.fixed .midpoint) (by decide) (by decide)
  obtain ⟨⟨_, hmc₁, hmc₂⟩, -⟩ := hrules .monteCarlo (by decide) (by decide)
  exact ⟨p₁, e₁, p₂, e₂, h₁, h₂, hmid₁.trans hmid₂.symm, hmc₁.trans hmc₂.symm,
    hsamples (by decide) (by decide)⟩

end Engine

end Quadrature
