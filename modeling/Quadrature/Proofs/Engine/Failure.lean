import Quadrature.Proofs.Engine.OneDraw
import Quadrature.Proofs.Engine.States
import Quadrature.Proofs.Rule.Outcome
import Quadrature.Proofs.Scalar.Value

/-!
# Samples beside a failure

Samples are asked for after an integral that failed as well. If its draw had points and only
their mean was not finite, these points are the samples. If the integrand had no value at one
of its positions, nothing of the draw was kept, and the samples are at other positions: those
of the last draw, if that was for the same interval and number, else those of a second draw.
There are samples at all of these positions or none. `Sampler.Remains` lists these cases and
`calculate_samples_failed` says that there are no others.
-/

namespace Quadrature

/-! ## After the integral -/

namespace Sampler

variable {s : Sampler} {f : Integrand Float} {a b x : Float} {n : Nat} {ps : List Point}
  {cause : RuleError Float} {why : EvaluationError Float}

/-- The positions at which samples are asked for: those of the last draw, if it was for the
same interval and number, or else new ones. -/
def nextPositions (s : Sampler) (a b : Float) (n : Nat) : List Float :=
  (s.positions? a b n).getD (s.generator.uniforms a b n).1

theorem length_nextPositions : (s.nextPositions a b n).length = n := by
  rw [nextPositions]
  cases h : s.positions? a b n with
  | none => exact ChaCha.length_uniforms
  | some xs =>
    obtain ⟨d, hd, rfl⟩ := Option.map_eq_some_iff.1 h
    obtain ⟨-, hfor⟩ := Option.filter_eq_some_iff.1 hd
    rw [Option.getD_some, List.length_map]
    exact (Draw.isFor_iff.1 hfor).2.2

theorem evaluateAt_fst (s : Sampler) (xs : List Float) :
    (s.evaluateAt f a b xs).1 = (sample f xs).map (List.zipWith Point.mk xs) := by
  unfold evaluateAt
  cases sample f xs <;> rfl

theorem samples_fst (hcheck : Rule.monteCarlo.check a b n = .ok ()) :
    (s.samples f a b n).1 =
      (sample f (s.nextPositions a b n)).map (List.zipWith Point.mk (s.nextPositions a b n)) := by
  rw [samples, guarded_ok hcheck, points, nextPositions]
  cases s.positions? a b n with
  | none => exact evaluateAt_fst _ _
  | some xs => exact evaluateAt_fst s xs

theorem samples_values (hcheck : Rule.monteCarlo.check a b n = .ok ())
    (hxs : ps.map Point.x = s.nextPositions a b n) (hps : ∀ p ∈ ps, f p.x = .ok p.y) :
    (s.samples f a b n).1 = .ok ps := by
  rw [samples_fst hcheck, ← hxs, sample_points hps, Except.map, zipWith_points]

theorem samples_failed (hcheck : Rule.monteCarlo.check a b n = .ok ())
    (hx : FailsFirst f (s.nextPositions a b n) x why) :
    (s.samples f a b n).1 = .error (.evaluation x why) := by
  rw [samples_fst hcheck, failsFirst_iff.1 hx]
  rfl

/-- What samples there are after an integral that failed for a cause. -/
inductive Remains (s : Sampler) (f : Integrand Float) (a b : Float) (n : Nat) :
    RuleError Float → List Point → Prop
  /-- All positions of the draw have values: the draw itself. -/
  | drawn {ps : List Point} (hxs : ps.map Point.x = (s.generator.uniforms a b n).1)
      (hps : ∀ p ∈ ps, f p.x = .ok p.y)
      (hmean : ((b - a) * mean (ps.map Point.y)).isFinite = false) :
      Remains s f a b n (.nonFinite .monteCarlo) ps
  /-- One of them has none, but those asked for next have: the points there. -/
  | elsewhere {x : Float} {why : EvaluationError Float} {ps : List Point}
      (hx : FailsFirst f (s.generator.uniforms a b n).1 x why)
      (hxs : ps.map Point.x = (s.afterDraw a b n).nextPositions a b n)
      (hps : ∀ p ∈ ps, f p.x = .ok p.y) : Remains s f a b n (.evaluation x why) ps
  /-- The integrand fails in both places. -/
  | nothing {x x' : Float} {why why' : EvaluationError Float}
      (hx : FailsFirst f (s.generator.uniforms a b n).1 x why)
      (hx' : FailsFirst f ((s.afterDraw a b n).nextPositions a b n) x' why') :
      Remains s f a b n (.evaluation x why) []

/-- An integral that fails keeps the points of its draw, if they have values, and else only
moves the generator. -/
theorem integrate_eq_error (hcheck : Rule.monteCarlo.check a b n = .ok ())
    (h : (s.integrate f a b n).1 = .error cause) :
    (∃ x why, cause = .evaluation x why ∧
        FailsFirst f (s.generator.uniforms a b n).1 x why ∧
        (s.integrate f a b n).2 = s.afterDraw a b n) ∨
      ∃ ps : List Point, cause = .nonFinite .monteCarlo ∧
        ps.map Point.x = (s.generator.uniforms a b n).1 ∧ (∀ p ∈ ps, f p.x = .ok p.y) ∧
        ((b - a) * mean (ps.map Point.y)).isFinite = false ∧
        (s.integrate f a b n).2 = { s.afterDraw a b n with last := some ⟨a, b, ps⟩ } := by
  rw [integrate_admitted hcheck] at h ⊢
  rcases failsFirst_or_values f (s.generator.uniforms a b n).1 with ⟨x, why, hx⟩ | ⟨ys, hys⟩
  · have heval : (s.afterDraw a b n).evaluateAt f a b (s.generator.uniforms a b n).1 =
        (.error (.evaluation x why), s.afterDraw a b n) := by
      rw [evaluateAt, failsFirst_iff.1 hx]
    rw [heval] at h ⊢
    cases h
    exact .inl ⟨x, why, rfl, hx, rfl⟩
  · obtain ⟨ps, hxs, -, hps⟩ := exists_points (sample_eq_ok.2 hys)
    rw [← hxs, evaluateAt_points hps] at h ⊢
    refine .inr ⟨ps, Rule.finite_eq_error h, rfl, hps, ?_, rfl⟩
    by_contra hfin
    have hok : estimate a b ps = .ok _ := Rule.finite_eq_ok.2 ⟨rfl, eq_true_of_ne_false hfin⟩
    have h : estimate a b ps = .error cause := h
    rw [hok] at h
    cases h

/-- The samples after a failure are those that remain. -/
theorem remains_samples (hcheck : Rule.monteCarlo.check a b n = .ok ())
    (h : (s.integrate f a b n).1 = .error cause) :
    Remains s f a b n cause (((s.integrate f a b n).2.samples f a b n).1.toOption.getD []) := by
  rcases integrate_eq_error hcheck h with ⟨x, why, rfl, hx, hs⟩ | ⟨ps, rfl, hxs, hps, hmean, hs⟩
  · rw [hs]
    rcases failsFirst_or_values f ((s.afterDraw a b n).nextPositions a b n) with
      ⟨x', why', hx'⟩ | ⟨ys, hys⟩
    · rw [samples_failed hcheck hx']
      exact .nothing hx hx'
    · obtain ⟨ps, hxs, -, hps⟩ := exists_points (sample_eq_ok.2 hys)
      rw [samples_values hcheck hxs hps]
      exact .elsewhere hx hxs hps
  · rw [hs, samples_kept hcheck rfl (length_of_drawn hxs) hps]
    exact .drawn hxs hps hmean

theorem Remains.eq_nil_or (h : Remains s f a b n cause ps) : ps = [] ∨ ps.length = n := by
  cases h with
  | drawn hxs => exact .inr (length_of_drawn hxs)
  | elsewhere _ hxs => exact .inr (by rw [← List.length_map, hxs, length_nextPositions])
  | nothing => exact .inl rfl

theorem Remains.values (h : Remains s f a b n cause ps) : ∀ p ∈ ps, f p.x = .ok p.y := by
  cases h with
  | drawn _ hps | elsewhere _ _ hps => exact hps
  | nothing => exact fun _ hp => absurd hp List.not_mem_nil

/-! ## Positions in the interval -/

/-- The points of the last draw lie in its interval. -/
def LastWithin (s : Sampler) : Prop :=
  ∀ d, s.last = some d → ∀ p ∈ d.points, d.a ≤ p.x ∧ p.x < d.b

theorem lastWithin_ofSeed (seed : UInt64) : (ofSeed seed).LastWithin := by
  rintro d ⟨⟩

/-- The points of the last draw also lie in an interval that the draw is for. -/
theorem LastWithin.kept (hs : s.LastWithin) {d : Draw} (hd : s.last = some d)
    (hfor : d.isFor a b n = true) (ha : a.isFinite = true) (hb : b.isFinite = true) :
    ∀ x ∈ d.points.map Point.x, a ≤ x ∧ x < b := by
  intro x hx
  obtain ⟨p, hp, rfl⟩ := List.mem_map.1 hx
  obtain ⟨hda, hdb, -⟩ := Draw.isFor_iff.1 hfor
  obtain ⟨hda, hva⟩ := value_eq_of_beq hda ha
  obtain ⟨hdb, hvb⟩ := value_eq_of_beq hdb hb
  obtain ⟨hle, hlt⟩ := hs d hd p hp
  have hx := isFinite_of_le hda hdb hle (le_of_lt_double hlt)
  rw [le_iff hda hx, hva, ← le_iff ha hx] at hle
  rw [lt_iff hx hdb, hvb, ← lt_iff hx hb] at hlt
  exact ⟨hle, hlt⟩

theorem LastWithin.call (hs : s.LastWithin) (c : Call) : (s.call c).2.LastWithin := by
  have hstep := s.step_call c
  generalize s.call c = r at hstep
  obtain ⟨o, s'⟩ := r
  cases hstep with
  | refused | idle | failed => exact hs
  | @stored ps g had _ hp =>
    -- new points, or new values at positions of a draw whose bounds equal those of the call
    obtain ⟨ha, hb, hab, -⟩ := had.bounds
    have hxs : ∀ x ∈ ps.map Point.x, c.a ≤ x ∧ x < c.b := by
      generalize ps.map Point.x = xs at hp
      cases hp with
      | drawn => exact ChaCha.mem_uniforms ha hab
      | kept _ hd hfor => exact hs.kept hd hfor ha hb
    rintro d ⟨⟩ p hp
    exact hxs p.x (List.mem_map_of_mem hp)

theorem mem_nextPositions (hs : s.LastWithin) (hcheck : Rule.monteCarlo.check a b n = .ok ()) :
    ∀ x ∈ s.nextPositions a b n, a ≤ x ∧ x < b := by
  obtain ⟨ha, hb, hab, -⟩ := checkBounds_eq_ok.1 (Rule.check_eq_ok.1 hcheck).1
  rw [nextPositions]
  cases h : s.positions? a b n with
  | none => exact ChaCha.mem_uniforms ha hab
  | some xs =>
    obtain ⟨d, hd, rfl⟩ := Option.map_eq_some_iff.1 h
    obtain ⟨hd, hfor⟩ := Option.filter_eq_some_iff.1 hd
    exact hs.kept hd hfor ha hb

theorem Remains.within (h : Remains s f a b n cause ps) (hs : s.LastWithin)
    (hcheck : Rule.monteCarlo.check a b n = .ok ()) : ∀ p ∈ ps, a ≤ p.x ∧ p.x < b := by
  obtain ⟨ha, -, hab, -⟩ := checkBounds_eq_ok.1 (Rule.check_eq_ok.1 hcheck).1
  intro p hp
  have hx : p.x ∈ ps.map Point.x := List.mem_map_of_mem hp
  cases h with
  | drawn hxs => exact ChaCha.mem_uniforms ha hab p.x (hxs ▸ hx)
  | elsewhere _ hxs =>
    -- the draw that failed was not kept, so the last one is still that of `s`
    have hafter : (s.afterDraw a b n).LastWithin := hs
    exact mem_nextPositions hafter hcheck p.x (hxs ▸ hx)
  | nothing => cases hp

end Sampler

/-! ## Reports -/

namespace Engine

/-- What comes of a sampler whose integral fails. -/
theorem runOf_failed {s : Sampler} {f : Integrand Float} {a b : Float} {n : Nat}
    {cause : RuleError Float} (exact : Option Float)
    (h : (s.integrate f a b n).1 = .error cause) :
    (runOf (.monteCarlo s) f a b n exact).result = .ofFailure .monteCarlo cause.message ∧
      (runOf (.monteCarlo s) f a b n exact).samples =
        ((s.integrate f a b n).2.samples f a b n).1.toOption.getD [] := by
  have hm : ((Method.monteCarlo s).integrate f a b n).1 = .error cause := h
  rw [runOf_eq, resultOf_of_error hm]
  exact ⟨rfl, rfl⟩

section Reports

variable [Elementary Float] {e e' : Engine} {stamp : Stamp} {r : Request} {p : Report}
  {ms : List Method} {subject : Subject}

/-- What a report says of a rule comes from the run of its method. -/
theorem Answer.exists_of_result? (h : Answer e r p e' ms subject) {rule : Rule} {res : RuleResult}
    (hres : p.result? rule = some res) :
    ∃ m ∈ ms, m.rule = rule ∧ res = (runFor r subject m).result := by
  have hmem := List.mem_of_find?_eq_some hres
  have hrule : res.rule = rule := by simpa using List.find?_some hres
  rw [h.results] at hmem
  obtain ⟨m, hm, rfl⟩ := List.mem_map.1 hmem
  exact ⟨m, hm, rule_runOf.1.symm.trans hrule, rfl⟩

theorem Answer.samples_eq_nil (h : Answer e r p e' ms subject) (hmc : .monteCarlo ∉ r.rules) :
    p.samples = [] := by
  rw [h.samples, List.flatMap_eq_nil_iff]
  intro m hm
  refine (runOf_fixed fun hrule => hmc ?_).1
  rw [← h.rules, ← hrule]
  exact List.mem_map_of_mem hm

/-- A report without Monte Carlo has no samples. Beside a failure of Monte Carlo there are those
of `Sampler.Remains`: none at all or as many as asked for, all of them on the integrand of the
request and in its interval. -/
theorem calculate_samples_failed (h : e.calculate stamp r = (.ok p, e')) :
    (.monteCarlo ∉ r.rules → p.samples = []) ∧
      ∀ res, p.result? .monteCarlo = some res → res.isFailure = true →
        ∃ s subject cause, e.registry.sampler = some s ∧
          Subject.ofSource e.configuration.catalogue r.function = .ok subject ∧
          res.failure = some cause.message ∧
          s.Remains subject.evaluate r.a r.b r.n cause p.samples ∧
          (p.samples = [] ∨ p.samples.length = r.n) ∧
          (∀ q ∈ p.samples, subject.evaluate q.x = .ok q.y) ∧
          ∀ c, Arises c e → ∀ q ∈ p.samples, r.a ≤ q.x ∧ q.x < r.b := by
  obtain ⟨ms, subject, hA⟩ := calculate_eq_ok h
  refine ⟨hA.samples_eq_nil, fun res hres hfailure => ?_⟩
  obtain ⟨m, hm, hrule, rfl⟩ := hA.exists_of_result? hres
  have hsamples := hA.samples_eq hm hrule
  have hcheck := hA.checked m hm
  have hget := hA.registered m hm
  cases m with
  | fixed r' => cases hrule
  | monteCarlo s =>
    have hsampler : e.registry.sampler = some s := by
      obtain ⟨s', hs', heq⟩ := Option.map_eq_some_iff.1 hget
      cases heq
      exact hs'
    cases hint : (s.integrate subject.evaluate r.a r.b r.n).1 with
    | ok v =>
      have hint' : ((Method.monteCarlo s).integrate subject.evaluate r.a r.b r.n).1 = .ok v := hint
      rw [runFor, runOf_eq, resultOf_of_ok hint'] at hfailure
      cases hfailure
    | error cause =>
      obtain ⟨hresult, hruns⟩ := runOf_failed (subject.exact r.a r.b) hint
      have hremains := Sampler.remains_samples hcheck hint
      rw [← hruns, ← runFor, ← hsamples] at hremains
      refine ⟨s, subject, cause, hsampler, hA.source, ?_, hremains, hremains.eq_nil_or,
        hremains.values, fun c he => ?_⟩
      · rw [runFor, hresult]
        rfl
      · have hwithin : s.LastWithin :=
          he.sampler (fun _ c hs => hs.call c) Sampler.lastWithin_ofSeed hsampler
        exact hremains.within hwithin hcheck

/-- Samples beside a failure, found by evaluation. -/
theorem exists_failure_with_samples (e : Engine) (stamp : Stamp) (r : Request)
    (h : (e.calculate stamp r).1.toOption.any (fun p =>
      (p.result? .monteCarlo).any RuleResult.isFailure && !p.samples.isEmpty) = true) :
    ∃ p e' res, e.calculate stamp r = (.ok p, e') ∧ p.result? .monteCarlo = some res ∧
      res.isFailure = true ∧ p.samples ≠ [] := by
  rcases hcalc : e.calculate stamp r with ⟨cause | p, e'⟩
  · rw [hcalc] at h
    cases h
  · rw [hcalc, Except.toOption, Option.any_some, Bool.and_eq_true] at h
    obtain ⟨hfails, hsamples⟩ := h
    obtain ⟨res, hres, hfailure⟩ := (Option.any_eq_true _ _).1 hfails
    refine ⟨p, e', res, rfl, hres, hfailure, fun hnil => ?_⟩
    rw [hnil] at hsamples
    cases hsamples

end Reports

/-- An integrand that overflows at the only position of the draw and not at that of the
second one. -/
theorem calculate_samples_failed_overflow :
    let e := ofConfiguration .initial 1
    let r := Request.ofRules (.expression "1e308*x") 0.0 10.0 1 [.monteCarlo] false
    ∃ p e' res s cause, ∃ subject : Subject, e.calculate ⟨⟨0⟩, ⟨0, 0⟩⟩ r = (.ok p, e') ∧
      p.result? .monteCarlo = some res ∧ res.isFailure = true ∧
      e.registry.sampler = some s ∧ s.Remains subject.evaluate 0.0 10.0 1 cause p.samples ∧
      p.samples.length = 1 ∧ ∀ q ∈ p.samples, 0.0 ≤ q.x ∧ q.x < 10.0 := by
  intro e r
  obtain ⟨p, e', res, h, hres, hfailure, hne⟩ :=
    exists_failure_with_samples e ⟨⟨0⟩, ⟨0, 0⟩⟩ r (by decide +kernel)
  obtain ⟨s, subject, cause, hs, -, -, hremains, hlen, -, hwithin⟩ :=
    (calculate_samples_failed h).2 res hres hfailure
  exact ⟨p, e', res, s, cause, subject, h, hres, hfailure, hs, hremains, hlen.resolve_left hne,
    hwithin .initial (.made 1)⟩

/-- Samples beside a failure in each of the ways there are: of a second draw, then at the
position that this draw has left, and of a draw with a value that is not finite. -/
theorem calculate_failed_with_samples :
    let r := Request.ofRules (.expression "1e308*x") 0.0 10.0 1 [.monteCarlo] false
    let e₀ := ofConfiguration .initial 1
    ∀ e ∈ [e₀, (e₀.calculate ⟨⟨0⟩, ⟨0, 0⟩⟩ r).2, ofConfiguration .initial 8],
      ∃ p e' res, e.calculate ⟨⟨1⟩, ⟨0, 0⟩⟩ r = (.ok p, e') ∧
        p.result? .monteCarlo = some res ∧ res.isFailure = true ∧ p.samples ≠ [] := by
  intro r e₀
  rw [List.forall_mem_cons, List.forall_mem_cons, List.forall_mem_singleton]
  refine ⟨?_, ?_, ?_⟩
  all_goals exact exists_failure_with_samples _ _ _ (by decide +kernel)

end Engine

end Quadrature
