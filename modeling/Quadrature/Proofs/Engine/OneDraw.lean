import Quadrature.Proofs.Engine.Answer
import Quadrature.Proofs.Rule.Sampler
import Quadrature.Proofs.Scalar.Arithmetic

/-!
# One draw for everything

When a report has a Monte Carlo value, its samples are the draw behind this value, and the
half-width is that of the same points, whatever the engine had drawn before. Mean and variance
are spelled out as sums over the ordinates in the order of the draw (`mean_eq`,
`Sampler.variance_eq`).
-/

namespace Quadrature

/-! ## Mean and variance -/

theorem mean_eq (ys : List Float) :
    mean ys = ys.foldl (· + ·) 0.0 / Float.ofNat ys.length := rfl

theorem Sampler.variance_eq (ys : List Float) :
    variance ys = (ys.map fun y => (y - mean ys) * (y - mean ys)).foldl (· + ·) 0.0 /
      Float.ofNat (ys.length - 1) := by
  simp only [variance, pow_two_double]
  rfl

/-! ## Samplers -/

namespace Sampler

variable {s : Sampler} {f : Integrand Float} {a b v : Float} {n : Nat} {ps : List Point}

/-- The sampler after a draw, before its points are kept. -/
def afterDraw (s : Sampler) (a b : Float) (n : Nat) : Sampler :=
  { s with generator := (s.generator.uniforms a b n).2 }

/-- An integral whose parameters are admitted evaluates its integrand at a draw. -/
theorem integrate_admitted (hcheck : Rule.monteCarlo.check a b n = .ok ()) :
    s.integrate f a b n =
      (((s.afterDraw a b n).evaluateAt f a b (s.generator.uniforms a b n).1).1.bind (estimate a b),
        ((s.afterDraw a b n).evaluateAt f a b (s.generator.uniforms a b n).1).2) := by
  rw [integrate, guarded_ok hcheck]
  rfl

/-- An integral that is found has kept the points it was computed from. -/
theorem integrate_eq_ok (h : (s.integrate f a b n).1 = .ok v) :
    ∃ ps : List Point, Rule.monteCarlo.check a b n = .ok () ∧
      ps.map Point.x = (s.generator.uniforms a b n).1 ∧ (∀ p ∈ ps, f p.x = .ok p.y) ∧
      estimate a b ps = .ok v ∧
      (s.integrate f a b n).2 = ⟨(s.generator.uniforms a b n).2, some ⟨a, b, ps⟩⟩ := by
  cases hcheck : Rule.monteCarlo.check a b n with
  | error e =>
    rw [integrate, guarded_error hcheck] at h
    cases h
  | ok _ =>
    rw [integrate_admitted hcheck] at h ⊢
    rcases evaluateAt_cases (s.afterDraw a b n) f a b (s.generator.uniforms a b n).1 with
      ⟨x, -, cause, -, heval⟩ | ⟨ps, hxs, hps, heval⟩
    · rw [heval] at h
      cases h
    · rw [heval] at h ⊢
      exact ⟨ps, rfl, hxs, hps, h, rfl⟩

theorem estimate_eq_ok (h : estimate a b ps = .ok v) :
    v = (b - a) * mean (ps.map Point.y) ∧ v.isFinite = true := by
  obtain ⟨rfl, hfin⟩ := Rule.finite_eq_ok.1 h
  exact ⟨rfl, hfin⟩

/-- The half-width of some points, where there is one. -/
theorem halfWidth_eq (hlen : ps.length = n) (hn : n ≠ 0) :
    (if n < 2 then none else (halfWidth a b ps).toOption) =
      let w := 1.96 * (b - a) * (variance (ps.map Point.y) / Float.ofNat n).sqrt
      if n = 1 ∨ w.isFinite = false then none else some w := by
  rw [halfWidth, List.length_map, hlen]
  generalize 1.96 * (b - a) * (variance (ps.map Point.y) / Float.ofNat n).sqrt = w
  dsimp only
  by_cases hone : n = 1
  · rw [if_pos (by omega), if_pos (.inl hone)]
  · have hfinite : Rule.monteCarlo.finite w =
        if w.isFinite = true then .ok w else .error (.nonFinite .monteCarlo) := rfl
    rw [if_neg (by omega), hfinite]
    by_cases hw : w.isFinite = true
    · simp [hone, hw, Except.toOption]
    · simp [hone, hw, Except.toOption]

section Kept

variable (hcheck : Rule.monteCarlo.check a b n = .ok ()) (hlast : s.last = some ⟨a, b, ps⟩)
  (hlen : ps.length = n) (hps : ∀ p ∈ ps, f p.x = .ok p.y)

include hcheck hlast hlen hps

theorem points_kept : s.points f a b n = (.ok ps, s) := by
  obtain ⟨ha, hb, -, -⟩ := checkBounds_eq_ok.1 (Rule.check_eq_ok.1 hcheck).1
  have hfor : (⟨a, b, ps⟩ : Draw).isFor a b n = true := hlen ▸ Draw.isFor_self ha hb
  rw [points, positions?_of_last hlast hfor]
  dsimp only
  rw [evaluateAt_points hps, ← hlast]

theorem errorBound_kept : s.errorBound f a b n =
    (if n < 2 then .ok none else (halfWidth a b ps).map some, s) := by
  rw [errorBound, guarded_ok hcheck]
  split
  · rfl
  · rw [points_kept hcheck hlast hlen hps]
    rfl

theorem samples_kept : s.samples f a b n = (.ok ps, s) := by
  rw [samples, guarded_ok hcheck, points_kept hcheck hlast hlen hps]

end Kept

end Sampler

namespace Engine

open Sampler

variable {s : Sampler} {f : Integrand Float} {a b v : Float} {n : Nat}

/-- Value, half-width and samples of a sampler that finds a value. -/
theorem runOf_sampler (exact : Option Float) (h : (s.integrate f a b n).1 = .ok v) :
    ∃ ps : List Point, ps.length = n ∧
      (∀ p ∈ ps, a ≤ p.x ∧ p.x < b ∧ f p.x = .ok p.y) ∧
      v = (b - a) * mean (ps.map Point.y) ∧
      (runOf (.monteCarlo s) f a b n exact).samples = ps ∧
      (runOf (.monteCarlo s) f a b n exact).result =
        .ofValue .monteCarlo v
          (if n < 2 then none else (halfWidth a b ps).toOption) exact := by
  obtain ⟨ps, hcheck, hxs, hps, hv, hs⟩ := integrate_eq_ok h
  have hlen : ps.length = n := length_of_drawn hxs
  obtain ⟨ha, -, hab, -⟩ := checkBounds_eq_ok.1 (Rule.check_eq_ok.1 hcheck).1
  have hmem : ∀ p ∈ ps, a ≤ p.x ∧ p.x < b := by
    intro p hp
    have hx : p.x ∈ (s.generator.uniforms a b n).1 := hxs ▸ List.mem_map_of_mem hp
    exact ChaCha.mem_uniforms ha hab p.x hx
  have hlast : (s.integrate f a b n).2.last = some ⟨a, b, ps⟩ := by rw [hs]
  have hbound := errorBound_kept hcheck hlast hlen hps
  have hsamples := samples_kept hcheck hlast hlen hps
  have hresult : resultOf (.monteCarlo s) f a b n exact =
      (.ofValue .monteCarlo v (if n < 2 then none else (halfWidth a b ps).toOption) exact,
        .monteCarlo (s.integrate f a b n).2) := by
    have hm : ((Method.monteCarlo s).integrate f a b n).1 = .ok v := h
    rw [resultOf_of_ok hm]
    show (RuleResult.ofValue .monteCarlo v
      ((s.integrate f a b n).2.errorBound f a b n).1.toOption.join exact,
      Method.monteCarlo ((s.integrate f a b n).2.errorBound f a b n).2) = _
    rw [hbound]
    split
    · rfl
    · cases halfWidth a b ps <;> rfl
  refine ⟨ps, hlen, fun p hp => ⟨(hmem p hp).1, (hmem p hp).2, hps p hp⟩,
    (estimate_eq_ok hv).1, ?_, ?_⟩
  · rw [runOf_eq, hresult]
    show ((s.integrate f a b n).2.samples f a b n).1.toOption.getD [] = ps
    rw [hsamples]
    rfl
  · rw [runOf_eq, hresult]

/-! ## Reports -/

/-- Where a report has a Monte Carlo value, its samples are as many points on the integrand
as asked for, with positions in the interval. With the mean `m` and the sample variance `s2` of
their ordinates the value is `(b - a) * m` and the bound is `1.96 * (b - a) * sqrt (s2 / n)`,
which is left out for a single point or if it is not finite. -/
theorem calculate_one_draw [Elementary Float] {e e' : Engine} {stamp : Stamp} {r : Request}
    {p : Report} (h : e.calculate stamp r = (.ok p, e')) (hmc : .monteCarlo ∈ r.rules) :
    ∃ subject res, Subject.ofSource e.configuration.catalogue r.function = .ok subject ∧
      p.result? .monteCarlo = some res ∧ ∀ v, res.value = some v →
        p.samples.length = r.n ∧
          (∀ q ∈ p.samples, r.a ≤ q.x ∧ q.x < r.b ∧ subject.evaluate q.x = .ok q.y) ∧
          let ys := p.samples.map Point.y
          let m := ys.foldl (· + ·) 0.0 / Float.ofNat r.n
          let s2 := (ys.map fun y => (y - m) * (y - m)).foldl (· + ·) 0.0 / Float.ofNat (r.n - 1)
          let w := 1.96 * (r.b - r.a) * (s2 / Float.ofNat r.n).sqrt
          v = (r.b - r.a) * m ∧
            res.errorBound = if r.n = 1 ∨ w.isFinite = false then none else some w := by
  obtain ⟨ms, subject, hA⟩ := calculate_eq_ok h
  obtain ⟨m, hm, hrule⟩ := hA.mem_of_rule hmc
  have hres := hA.result? hm
  have hsamples := hA.samples_eq hm hrule
  rw [hrule] at hres
  refine ⟨subject, _, hA.source, hres, fun v hv => ?_⟩
  cases m with
  | fixed r' => cases hrule
  | monteCarlo s =>
    have hn : r.n ≠ 0 := (Rule.check_eq_ok.1 (hA.checked _ hm)).2.1
    cases hint : (s.integrate subject.evaluate r.a r.b r.n).1 with
    | error cause =>
      have hint' : ((Method.monteCarlo s).integrate subject.evaluate r.a r.b r.n).1 =
        .error cause := hint
      rw [runFor, runOf_eq, resultOf_of_error hint'] at hv
      cases hv
    | ok v' =>
      obtain ⟨ps, hlen, hps, hvalue, hruns, hresult⟩ :=
        runOf_sampler (subject.exact r.a r.b) hint
      rw [runFor, hruns] at hsamples
      rw [runFor, hresult] at hv ⊢
      obtain rfl : v' = v := Option.some.inj hv
      have hcount : (ps.map Point.y).length = r.n := by rw [List.length_map, hlen]
      have hbound := halfWidth_eq (a := r.a) (b := r.b) hlen hn
      rw [variance_eq, mean_eq, hcount] at hbound
      rw [mean_eq, hcount] at hvalue
      rw [hsamples]
      exact ⟨hlen, hps, hvalue, hbound⟩

/-- A fresh engine that is also asked for a fixed rule and a sweep: the two squares it draws
have their mean as the value and the half-width of their variance as the bound. -/
theorem calculate_one_draw_square :
    let e := Engine.ofConfiguration .initial 7
    let r := Request.ofRules (.expression "x*x") 0.0 1.0 2 [.fixed .midpoint, .monteCarlo] true
    ∃ p e' res, e.calculate ⟨⟨0⟩, ⟨0, 0⟩⟩ r = (.ok p, e') ∧
      p.samples.map Point.y = [0.02489960823494072, 0.028220426004576617] ∧
      p.result? .monteCarlo = some res ∧ res.value = some 0.026560017119758667 ∧
      res.errorBound = some 0.003254401414243179 := by
  intro e r
  have hys : (e.calculate ⟨⟨0⟩, ⟨0, 0⟩⟩ r).1.toOption.map (fun p =>
      (p.samples.map Point.y, (p.result? .monteCarlo).bind RuleResult.value)) =
      some ([0.02489960823494072, 0.028220426004576617], some 0.026560017119758667) := by
    decide +kernel
  rcases h : e.calculate ⟨⟨0⟩, ⟨0, 0⟩⟩ r with ⟨cause | p, e'⟩
  · rw [h] at hys
    cases hys
  · obtain ⟨subject, res, -, hres, hdraw⟩ := calculate_one_draw h (by decide)
    rw [h, Except.toOption, Option.map_some, hres, Option.bind_some, Option.some.injEq,
      Prod.mk.injEq] at hys
    obtain ⟨hsamples, hvalue⟩ := hys
    obtain ⟨-, -, -, hbound⟩ := hdraw _ hvalue
    rw [hsamples] at hbound
    exact ⟨p, e', res, rfl, hsamples, hres, hvalue, hbound.trans (by decide +kernel)⟩

end Engine

end Quadrature
