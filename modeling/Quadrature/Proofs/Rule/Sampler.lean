import Quadrature.Proofs.Random.Uniform
import Quadrature.Proofs.Rule.Error
import Quadrature.Rule.Sampler

/-!
# Calls on a sampler

What a single call does to a sampler. `Step` lists the ways in which a call can go: it is
refused, it has nothing to do, its integrand fails at one of the positions, or its points
are kept. `step_call` says that there are no others; what follows about runs of calls uses
nothing else of the operations.
-/

namespace Quadrature

/-! ## Points -/

section Points

variable {f : Integrand Float} {ps : List Point} {xs ys : List Float}

theorem sample_points (h : ∀ p ∈ ps, f p.x = .ok p.y) :
    sample f (ps.map Point.x) = .ok (ps.map Point.y) := by
  rw [sample_eq_ok, List.forall₂_map_left_iff, List.forall₂_map_right_iff]
  exact List.forall₂_same.2 h

theorem exists_points (h : sample f xs = .ok ys) :
    ∃ ps : List Point, ps.map Point.x = xs ∧ ps.map Point.y = ys ∧ ∀ p ∈ ps, f p.x = .ok p.y := by
  induction sample_eq_ok.1 h with
  | nil => exact ⟨[], rfl, rfl, fun _ hp => by cases hp⟩
  | cons hxy hrest ih =>
    obtain ⟨ps, rfl, rfl, hps⟩ := ih (sample_eq_ok.2 hrest)
    exact ⟨⟨_, _⟩ :: ps, rfl, rfl, List.forall_mem_cons.2 ⟨hxy, hps⟩⟩

theorem zipWith_points (ps : List Point) :
    List.zipWith Point.mk (ps.map Point.x) (ps.map Point.y) = ps := by
  induction ps with
  | nil => rfl
  | cons p ps ih => simp [ih]

theorem length_of_drawn {g : ChaCha} {a b : Float} {n : Nat}
    (h : ps.map Point.x = (g.uniforms a b n).1) : ps.length = n := by
  have hlen := congrArg List.length h
  rwa [List.length_map, ChaCha.length_uniforms] at hlen

theorem Draw.isFor_iff {d : Draw} {a b : Float} {n : Nat} :
    d.isFor a b n = true ↔ (d.a == a) = true ∧ (d.b == b) = true ∧ d.points.length = n := by
  simp only [Draw.isFor, Bool.and_eq_true, beq_iff_eq, and_assoc]

theorem Draw.isFor_self {a b : Float} (ha : a.isFinite = true) (hb : b.isFinite = true) :
    (⟨a, b, ps⟩ : Draw).isFor a b ps.length = true :=
  Draw.isFor_iff.2 ⟨beq_self ha, beq_self hb, rfl⟩

end Points

namespace Sampler

inductive Operation where
  | integrate
  | errorBound
  | samples
  deriving DecidableEq

/-- An operation with its arguments. -/
structure Call where
  operation : Operation
  f : Integrand Float
  (a b : Float)
  n : Nat

/-- What an operation finds out. -/
inductive Finding where
  | value (v : Float)
  | bound (w : Option Float)
  | points (ps : List Point)

def call (s : Sampler) (c : Call) : Except (RuleError Float) Finding × Sampler :=
  match c.operation with
  | .integrate => (s.integrate c.f c.a c.b c.n).map (·.map .value) id
  | .errorBound => (s.errorBound c.f c.a c.b c.n).map (·.map .bound) id
  | .samples => (s.samples c.f c.a c.b c.n).map (·.map .points) id

namespace Call

/-- The parameters pass the check of the rule. -/
def Admitted (c : Call) : Prop :=
  Rule.monteCarlo.check c.a c.b c.n = .ok ()

/-- Only the half-width of a single point can do without points. -/
def NeedsPoints (c : Call) : Prop :=
  c.operation = .errorBound → 2 ≤ c.n

/-- The last draw of the sampler was for the interval and the number of the call. -/
def Matches (c : Call) (s : Sampler) : Prop :=
  ∃ d, s.last = some d ∧ d.isFor c.a c.b c.n = true

/-- The call takes new positions from the stream: an integral always, the others only if
the last draw does not match. -/
def Draws (c : Call) (s : Sampler) : Prop :=
  c.Admitted ∧ c.NeedsPoints ∧ (c.operation = .integrate ∨ ¬ c.Matches s)

/-- What the operation makes of its points. -/
def finding (c : Call) (ps : List Point) : Except (RuleError Float) Finding :=
  match c.operation with
  | .integrate => (estimate c.a c.b ps).map .value
  | .errorBound => ((halfWidth c.a c.b ps).map some).map .bound
  | .samples => .ok (.points ps)

end Call

variable {s : Sampler} {c : Call} {f : Integrand Float} {a b : Float} {n : Nat}
  {xs : List Float} {ps : List Point} {g : ChaCha}

/-! ## Evaluation -/

theorem evaluateAt_points (hps : ∀ p ∈ ps, f p.x = .ok p.y) :
    s.evaluateAt f a b (ps.map Point.x) = (.ok ps, { s with last := some ⟨a, b, ps⟩ }) := by
  rw [evaluateAt, sample_points hps]
  dsimp only
  rw [zipWith_points]

theorem evaluateAt_cases (s : Sampler) (f : Integrand Float) (a b : Float) (xs : List Float) :
    (∃ x ∈ xs, ∃ cause, f x = .error cause ∧
        s.evaluateAt f a b xs = (.error (.evaluation x cause), s)) ∨
      ∃ ps : List Point, ps.map Point.x = xs ∧ (∀ p ∈ ps, f p.x = .ok p.y) ∧
        s.evaluateAt f a b xs = (.ok ps, { s with last := some ⟨a, b, ps⟩ }) := by
  cases h : sample f xs with
  | error e =>
    obtain ⟨x, hx, cause, hf, rfl⟩ := sample_eq_error h
    exact .inl ⟨x, hx, cause, hf, by rw [evaluateAt, h]⟩
  | ok ys =>
    obtain ⟨ps, rfl, -, hps⟩ := exists_points h
    exact .inr ⟨ps, rfl, hps, evaluateAt_points hps⟩

/-! ## Positions -/

/-- The positions at which a call evaluates its integrand, and the generator after it. -/
inductive Positions (s : Sampler) (c : Call) : List Float → ChaCha → Prop
  | drawn (h : c.Draws s) : Positions s c (s.generator.uniforms c.a c.b c.n).1
      (s.generator.uniforms c.a c.b c.n).2
  | kept {d : Draw} (h : ¬ c.Draws s) (hd : s.last = some d)
      (hfor : d.isFor c.a c.b c.n = true) : Positions s c (d.points.map Point.x) s.generator

theorem positions?_of_last {d : Draw} (hd : s.last = some d) (hfor : d.isFor a b n = true) :
    s.positions? a b n = some (d.points.map Point.x) := by
  rw [positions?, hd, Option.filter_some, if_pos hfor]
  rfl

theorem positions?_eq_none (h : ∀ d, s.last = some d → d.isFor a b n = false) :
    s.positions? a b n = none := by
  cases hd : s.last with
  | none => rw [positions?, hd]; rfl
  | some d =>
    rw [positions?, hd, Option.filter_some, h d hd]
    rfl

/-- The points of a call. -/
def acquire (s : Sampler) (c : Call) : Except (RuleError Float) (List Point) × Sampler :=
  match c.operation with
  | .integrate => s.draw c.f c.a c.b c.n
  | .errorBound | .samples => s.points c.f c.a c.b c.n

theorem points_eq (hd : c.Admitted) (hn : c.NeedsPoints) (hop : c.operation ≠ .integrate) :
    ∃ xs g, Positions s c xs g ∧
      s.points c.f c.a c.b c.n = evaluateAt { s with generator := g } c.f c.a c.b xs := by
  by_cases hm : c.Matches s
  · have hnot : ¬ c.Draws s := fun h => h.2.2.elim hop (absurd hm)
    obtain ⟨d, hlast, hfor⟩ := hm
    refine ⟨_, _, .kept hnot hlast hfor, ?_⟩
    rw [points, positions?_of_last hlast hfor]
  · refine ⟨_, _, .drawn ⟨hd, hn, .inr hm⟩, ?_⟩
    rw [points, positions?_eq_none]
    · rfl
    · intro d hlast
      exact Bool.eq_false_iff.2 fun hfor => hm ⟨d, hlast, hfor⟩

theorem acquire_eq (hd : c.Admitted) (hn : c.NeedsPoints) :
    ∃ xs g, Positions s c xs g ∧
      s.acquire c = evaluateAt { s with generator := g } c.f c.a c.b xs := by
  unfold acquire
  cases hop : c.operation with
  | integrate => exact ⟨_, _, .drawn ⟨hd, hn, .inl hop⟩, rfl⟩
  | errorBound | samples => exact points_eq hd hn (by rw [hop]; decide)

/-! ## Calls -/

theorem guarded_ok {β : Type} {run : Sampler → Except (RuleError Float) β × Sampler}
    (h : Rule.monteCarlo.check a b n = .ok ()) : s.guarded a b n run = run s := by
  rw [guarded, h]

theorem guarded_error {β : Type} {run : Sampler → Except (RuleError Float) β × Sampler}
    {e : ParameterError Float} (h : Rule.monteCarlo.check a b n = .error e) :
    s.guarded a b n run = (.error (.parameter e), s) := by
  rw [guarded, h]

theorem call_refused {e : ParameterError Float}
    (h : Rule.monteCarlo.check c.a c.b c.n = .error e) :
    s.call c = (.error (.parameter e), s) := by
  unfold call
  cases c.operation with
  | integrate => dsimp only; rw [integrate, guarded_error h]; rfl
  | errorBound => dsimp only; rw [errorBound, guarded_error h]; rfl
  | samples => dsimp only; rw [samples, guarded_error h]; rfl

theorem call_idle (h : c.Admitted) (hn : ¬ c.NeedsPoints) :
    s.call c = (.ok (.bound none), s) := by
  obtain ⟨hop, hlt⟩ : c.operation = .errorBound ∧ ¬ 2 ≤ c.n := Classical.not_imp.1 hn
  unfold call
  rw [hop]
  dsimp only
  rw [errorBound, guarded_ok h, if_pos (by omega)]
  rfl

theorem call_acquire (h : c.Admitted) (hn : c.NeedsPoints) :
    s.call c = ((s.acquire c).1.bind c.finding, (s.acquire c).2) := by
  unfold call acquire Call.finding
  cases hop : c.operation with
  | integrate =>
    dsimp only
    rw [integrate, guarded_ok h]
    obtain ⟨points, s'⟩ := s.draw c.f c.a c.b c.n
    cases points <;> rfl
  | errorBound =>
    have hle : ¬ c.n < 2 := Nat.not_lt.2 (hn hop)
    dsimp only
    rw [errorBound, guarded_ok h, if_neg hle]
    obtain ⟨points, s'⟩ := s.points c.f c.a c.b c.n
    cases points <;> rfl
  | samples =>
    dsimp only
    rw [samples, guarded_ok h]
    obtain ⟨points, s'⟩ := s.points c.f c.a c.b c.n
    cases points <;> rfl

/-- The ways in which a call can go, with what it finds out and the sampler after it. -/
inductive Step (s : Sampler) (c : Call) : Except (RuleError Float) Finding → Sampler → Prop
  | refused {e : ParameterError Float} (h : Rule.monteCarlo.check c.a c.b c.n = .error e) :
      Step s c (.error (.parameter e)) s
  | idle (h : c.Admitted) (hn : ¬ c.NeedsPoints) : Step s c (.ok (.bound none)) s
  | failed {xs : List Float} {g : ChaCha} {x : Float} {cause : EvaluationError Float}
      (h : c.Admitted) (hn : c.NeedsPoints) (hp : Positions s c xs g) (hx : x ∈ xs)
      (hf : c.f x = .error cause) : Step s c (.error (.evaluation x cause)) { s with generator := g }
  | stored {ps : List Point} {g : ChaCha} (h : c.Admitted) (hn : c.NeedsPoints)
      (hp : Positions s c (ps.map Point.x) g) (hf : ∀ p ∈ ps, c.f p.x = .ok p.y) :
      Step s c (c.finding ps) ⟨g, some ⟨c.a, c.b, ps⟩⟩

theorem step_call (s : Sampler) (c : Call) : Step s c (s.call c).1 (s.call c).2 := by
  cases h : Rule.monteCarlo.check c.a c.b c.n with
  | error e =>
    rw [call_refused h]
    exact .refused h
  | ok _ =>
    have h : c.Admitted := h
    by_cases hn : c.NeedsPoints
    · obtain ⟨xs, g, hp, hacquire⟩ := acquire_eq (s := s) h hn
      rw [call_acquire h hn, hacquire]
      rcases evaluateAt_cases { s with generator := g } c.f c.a c.b xs with
        ⟨x, hx, cause, hf, heval⟩ | ⟨ps, rfl, hf, heval⟩
      · rw [heval]
        exact .failed h hn hp hx hf
      · rw [heval]
        exact .stored h hn hp hf
    · rw [call_idle h hn]
      exact .idle h hn

/-! ## What becomes of the generator and the last draw -/

namespace Call

/-- The integrand has a value at every position of the call, so that its points are kept. -/
def Stores (c : Call) (s : Sampler) : Prop :=
  c.Admitted ∧ c.NeedsPoints ∧ ∀ x cause, (s.call c).1 ≠ .error (.evaluation x cause)

theorem Admitted.bounds (h : c.Admitted) :
    c.a.isFinite = true ∧ c.b.isFinite = true ∧ c.a < c.b ∧ 0 < c.n := by
  obtain ⟨hbounds, hn, -⟩ := Rule.check_eq_ok.1 h
  obtain ⟨ha, hb, hab, -⟩ := checkBounds_eq_ok.1 hbounds
  exact ⟨ha, hb, hab, Nat.pos_of_ne_zero hn⟩

/-- Points with values can only fail to give a finite result. -/
theorem finding_error {e : RuleError Float} (h : c.finding ps = .error e) :
    e = .nonFinite .monteCarlo := by
  unfold finding at h
  split at h
  · cases hv : estimate c.a c.b ps with
    | ok v => rw [hv] at h; cases h
    | error e' =>
      rw [hv] at h
      cases h
      exact Rule.finite_eq_error hv
  · cases hw : halfWidth c.a c.b ps with
    | ok w => rw [hw] at h; cases h
    | error e' =>
      rw [hw] at h
      cases h
      exact Rule.finite_eq_error hw
  · cases h

end Call

theorem call_stores (h : c.Stores s) :
    ∃ (ps : List Point) (g : ChaCha), Positions s c (ps.map Point.x) g ∧
      (∀ p ∈ ps, c.f p.x = .ok p.y) ∧ (s.call c).2 = ⟨g, some ⟨c.a, c.b, ps⟩⟩ := by
  obtain ⟨had, hn, hne⟩ := h
  have hstep := step_call s c
  generalize s.call c = r at hstep hne
  obtain ⟨o, s'⟩ := r
  cases hstep with
  | refused he => rw [Call.Admitted, he] at had; cases had
  | idle _ hidle => exact absurd hn hidle
  | failed => exact absurd rfl (hne _ _)
  | stored _ _ hp hf => exact ⟨_, _, hp, hf, rfl⟩

theorem last_of_not_stores (h : ¬ c.Stores s) : (s.call c).2.last = s.last := by
  have hstep := step_call s c
  have hno : ∀ had : c.Admitted, ∀ hn : c.NeedsPoints, ¬ ∀ x cause,
      (s.call c).1 ≠ .error (.evaluation x cause) := fun had hn hne => h ⟨had, hn, hne⟩
  generalize s.call c = r at hstep hno
  obtain ⟨o, s'⟩ := r
  cases hstep with
  | refused | idle | failed => rfl
  | stored had hn =>
    refine absurd (fun x cause he => ?_) (hno had hn)
    cases Call.finding_error he

theorem call_of_parameter {e : ParameterError Float} (h : (s.call c).1 = .error (.parameter e)) :
    (s.call c).2 = s := by
  have hstep := step_call s c
  generalize s.call c = r at hstep h
  obtain ⟨o, s'⟩ := r
  cases hstep with
  | refused | idle => rfl
  | failed => cases h
  | stored => cases Call.finding_error h

theorem last_of_evaluation {x : Float} {cause : EvaluationError Float}
    (h : (s.call c).1 = .error (.evaluation x cause)) : (s.call c).2.last = s.last :=
  last_of_not_stores fun hc => hc.2.2 x cause h

theorem Positions.of_draws (h : Positions s c xs g) (hd : c.Draws s) :
    xs = (s.generator.uniforms c.a c.b c.n).1 := by
  cases h with
  | drawn => rfl
  | kept hn => exact absurd hd hn

theorem Positions.of_not_draws {d : Draw} (h : Positions s c xs g) (hn : ¬ c.Draws s)
    (hlast : s.last = some d) : xs = d.points.map Point.x := by
  cases h with
  | drawn hd => exact absurd hd hn
  | kept _ hlast' =>
    obtain rfl := Option.some.inj (hlast.symm.trans hlast')
    rfl

theorem Positions.generator_eq (h : Positions s c xs g) :
    (c.Draws s → g = (s.generator.uniforms c.a c.b c.n).2) ∧
      (¬ c.Draws s → g = s.generator) := by
  cases h with
  | drawn hd => exact ⟨fun _ => rfl, fun hn => absurd hd hn⟩
  | kept hn => exact ⟨fun hd => absurd hd hn, fun _ => rfl⟩

theorem generator_call (s : Sampler) (c : Call) :
    (c.Draws s → (s.call c).2.generator = (s.generator.uniforms c.a c.b c.n).2) ∧
      (¬ c.Draws s → (s.call c).2.generator = s.generator) := by
  have hstep := step_call s c
  generalize s.call c = r at hstep
  obtain ⟨o, s'⟩ := r
  cases hstep with
  | refused he =>
    refine ⟨fun hd => ?_, fun _ => rfl⟩
    have had := hd.1
    rw [Call.Admitted, he] at had
    cases had
  | idle _ hn => exact ⟨fun hd => absurd hd.2.1 hn, fun _ => rfl⟩
  | failed _ _ hp => exact hp.generator_eq
  | stored _ _ hp => exact hp.generator_eq

end Sampler

end Quadrature
