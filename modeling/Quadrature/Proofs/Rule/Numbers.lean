import Quadrature.Proofs.Rule.Sampler
import Quadrature.Proofs.Scalar.Overflow
import Quadrature.Rule.Method

/-!
# The numbers that rules give

An integral is finite, and so are the points and the half-width of a sampler, which is not
negative. The bound of a rule on fixed abscissae is a number as long as the products in it do
not overflow, however large the divisor is.
-/

namespace Quadrature

/-- A finite double that is not negative. -/
def IsMagnitude (x : Float) : Prop :=
  x.isFinite = true ∧ 0.0 ≤ x

theorem isMagnitude_iff {x : Float} :
    IsMagnitude x ↔ x.isFinite = true ∧ 0 ≤ Scalar.value x := by
  obtain ⟨hzero, hvalue⟩ := value_literal_zero
  refine and_congr_right fun hx => ?_
  rw [le_iff hzero hx, hvalue]

theorem isMagnitude_zero : IsMagnitude 0.0 :=
  isMagnitude_iff.2 ⟨value_literal_zero.1, value_literal_zero.2.ge⟩

theorem isMagnitude_abs {x : Float} (hx : x.isFinite = true) : IsMagnitude x.abs := by
  obtain ⟨hfin, hvalue⟩ := value_abs hx
  exact isMagnitude_iff.2 ⟨hfin, hvalue ▸ abs_nonneg _⟩

/-! ## Derivatives -/

section Derivatives

variable {a b bound : Float} {f : Integrand Float} {steps : ℕ}

theorem isMagnitude_raise (h : IsMagnitude bound) (d : Option Float) :
    IsMagnitude (raise bound d) := by
  cases d with
  | none => exact h
  | some x =>
    rw [raise]
    split
    · next hx => exact isMagnitude_abs (Bool.and_eq_true_iff.1 hx).1
    · exact h

/-- Differences that are not finite do not count. -/
theorem isMagnitude_greatestOn (d : Float → Option Float) :
    IsMagnitude (greatestOn a b steps d) :=
  List.foldlRecOn _ _ isMagnitude_zero fun _ h _ _ => isMagnitude_raise h _

end Derivatives

/-! ## Bounds on fixed abscissae -/

section Bounds

variable {a b c w x width derivative : Float} {f : Integrand Float} {r : FixedRule}
  {n p q : ℕ}

/-- The divisor of a bound is eight or more. -/
theorem atLeast_divisor (hc : 8.0 ≤ c) (hn : n ≠ 0) :
    AtLeast 8 (c * Scalar.pow (n : Float) q) := by
  obtain ⟨hone, hv1⟩ := value_literal_one
  obtain ⟨height, hv8⟩ := value_literal_eight
  have hrep8 : Representable (8 : ℚ) := hv8 ▸ representable_value height
  have hlt8 : (8 : ℚ) < overflow := hv8 ▸ (abs_lt.1 (abs_value_lt height)).2
  have hpow : AtLeast 1 (Scalar.pow (n : Float) q) := by
    have hcast : AtLeast 1 (n : Float) :=
      (rounds_natCast n).atLeast representable_one (abs_one.trans_lt one_lt_overflow)
        (by exact_mod_cast Nat.one_le_iff_ne_zero.2 hn)
    have hunit : AtLeast 1 (1.0 : Float) := hv1 ▸ atLeast_of_le hone (le_self hone)
    rw [Scalar.pow, if_neg (by omega)]
    exact hunit.mulPow hcast
  exact (hv8 ▸ atLeast_of_le height hc).mul hpow (by norm_num) (.inl (by norm_num)) hrep8 hlt8

/-- A power of a width and a derivative whose product does not overflow. -/
def HasProduct (factors : Float × Float) : Prop :=
  factors.1.isFinite = true ∧ |Scalar.value factors.1 * Scalar.value factors.2| < overflow

theorem isFinite_mul_iff {y : Float} (hy : y.isFinite = true) :
    (x * y).isFinite = true ↔ HasProduct (x, y) := by
  constructor
  · intro h
    have hx := (isFinite_of_mul h).1
    exact ⟨hx, (rounds_mul hx hy).isFinite_iff.1 h⟩
  · rintro ⟨hx, hlt⟩
    exact (rounds_mul hx hy).isFinite_iff.2 hlt

/-- A bound whose factors have a product is a magnitude, and far from an overflow. -/
theorem value_boundTerm (hc : 8.0 ≤ c) (hn : n ≠ 0) (hd : IsMagnitude derivative)
    (h : HasProduct (Scalar.pow width p, derivative)) :
    (boundTerm width derivative c p q n).isFinite = true ∧
      0 ≤ Scalar.value (boundTerm width derivative c p q n) ∧
      Scalar.value (boundTerm width derivative c p q n) ≤ 2 ^ (1021 : ℤ) := by
  obtain ⟨hfin, hle⟩ := (atLeast_divisor hc hn (q := q)).div_le ((isFinite_mul_iff hd.1).2 h)
  obtain ⟨habsFin, habs⟩ := value_abs hfin
  have hterm : boundTerm width derivative c p q n =
    (Scalar.pow width p * derivative / (c * Scalar.pow (n : Float) q)).abs := rfl
  rw [hterm, habs]
  exact ⟨habsFin, abs_nonneg _, hle⟩

theorem hasProduct_of_boundTerm (hd : IsMagnitude derivative)
    (h : (boundTerm width derivative c p q n).isFinite = true) :
    HasProduct (Scalar.pow width p, derivative) :=
  (isFinite_mul_iff hd.1).1 (isFinite_of_div (isFinite_abs_iff.1 h))

theorem isMagnitude_boundTerm (hc : 8.0 ≤ c) (hn : n ≠ 0) (hd : IsMagnitude derivative) :
    IsMagnitude (boundTerm width derivative c p q n) ↔ HasProduct (Scalar.pow width p, derivative) := by
  refine ⟨fun h => hasProduct_of_boundTerm hd h.1, fun h => isMagnitude_iff.2 ?_⟩
  obtain ⟨hfin, hnonneg, -⟩ := value_boundTerm hc hn hd h (q := q)
  exact ⟨hfin, hnonneg⟩

/-- Two bounds are far enough from an overflow to be added. -/
theorem isMagnitude_add_boundTerm {width' derivative' c' : Float} {p' q' n' : ℕ} (hc : 8.0 ≤ c)
    (hc' : 8.0 ≤ c') (hn : n ≠ 0) (hn' : n' ≠ 0) (hd : IsMagnitude derivative)
    (hd' : IsMagnitude derivative') :
    IsMagnitude (boundTerm width derivative c p q n + boundTerm width' derivative' c' p' q' n') ↔
      HasProduct (Scalar.pow width p, derivative) ∧ HasProduct (Scalar.pow width' p', derivative') := by
  constructor
  · intro h
    obtain ⟨hleft, hright⟩ := isFinite_of_add h.1
    exact ⟨hasProduct_of_boundTerm hd hleft, hasProduct_of_boundTerm hd' hright⟩
  · rintro ⟨h, h'⟩
    obtain ⟨hfin, hnonneg, hle⟩ := value_boundTerm hc hn hd h (q := q)
    obtain ⟨hfin', hnonneg', hle'⟩ := value_boundTerm hc' hn' hd' h' (q := q')
    have hround := rounds_add hfin hfin'
    have hsum := add_nonneg hnonneg hnonneg'
    have hdouble : (2 : ℚ) ^ (1021 : ℤ) + 2 ^ (1021 : ℤ) = 2 ^ (1022 : ℤ) := by
      rw [← two_mul, mul_comm, ← zpow_add_one₀ two_ne_zero]
      norm_num
    have hfinite := hround.isFinite_iff.2 <| by
      rw [abs_of_nonneg hsum]
      exact ((add_le_add hle hle').trans_eq hdouble).trans_lt (zpow_lt_overflow (by norm_num))
    exact isMagnitude_iff.2 ⟨hfinite, hround.value_nonneg hfinite hsum⟩

/-- The power of a width and the derivative in each term of a bound. -/
def FixedRule.factors : FixedRule → Integrand Float → Float → Float → ℕ → List (Float × Float)
  | trapezoidal, f, a, b, _ => [(Scalar.pow (b - a) 3, secondDerivativeBound f a b fineSteps)]
  | midpoint, f, a, b, _ => [(Scalar.pow (b - a) 3, secondDerivativeBound f a b fineSteps)]
  | simpsonOneThird, f, a, b, n =>
    if n % 2 = 0 then [(Scalar.pow (b - a) 5, fourthDerivativeBound f a b fineSteps)]
    else if n = 1 then [(Scalar.pow (b - a) 3, secondDerivativeBound f a b coarseSteps)]
    else
      let split := splitPoint a b n
      [(Scalar.pow (split - a) 5, fourthDerivativeBound f a split fineSteps),
        (Scalar.pow (b - split) 3, secondDerivativeBound f split b coarseSteps)]
  | simpsonThreeEighths, _, _, _, _ => []

/-- A bound is a magnitude exactly if none of its products overflows. -/
theorem FixedRule.isMagnitude_bound (hn : n ≠ 0) (h : r.bound? f a b n = some w) :
    IsMagnitude w ↔ ∀ t ∈ r.factors f a b n, HasProduct t := by
  have h12 : (8.0 : Float) ≤ 12.0 := by decide +kernel
  have h24 : (8.0 : Float) ≤ 24.0 := by decide +kernel
  have h180 : (8.0 : Float) ≤ 180.0 := by decide +kernel
  cases r with
  | trapezoidal =>
    cases h
    rw [factors, List.forall_mem_singleton]
    exact isMagnitude_boundTerm h12 hn (isMagnitude_greatestOn _)
  | midpoint =>
    cases h
    rw [factors, List.forall_mem_singleton]
    exact isMagnitude_boundTerm h24 hn (isMagnitude_greatestOn _)
  | simpsonOneThird =>
    cases h
    rw [factors]
    split_ifs with heven hone
    · rw [List.forall_mem_singleton]
      exact isMagnitude_boundTerm h180 hn (isMagnitude_greatestOn _)
    · rw [List.forall_mem_singleton]
      exact isMagnitude_boundTerm h12 one_ne_zero (isMagnitude_greatestOn _)
    · rw [List.forall_mem_cons, List.forall_mem_singleton]
      exact isMagnitude_add_boundTerm h180 h12 (by omega) one_ne_zero (isMagnitude_greatestOn _)
        (isMagnitude_greatestOn _)
  | simpsonThreeEighths => cases h

end Bounds

/-! ## Samplers -/

/-- An integrand with finite values at finite points. -/
def Integrand.IsFinite (f : Integrand Float) : Prop :=
  ∀ x y, x.isFinite = true → f x = .ok y → y.isFinite = true

namespace Sampler

variable {s : Sampler} {c : Call} {a b w : Float} {ps : List Point} {xs : List Float} {g : ChaCha}

/-- The numbers that an operation finds are finite, and a bound is not negative. -/
def Finding.IsFinite : Finding → Prop
  | value v => v.isFinite = true
  | bound w => ∀ x, w = some x → IsMagnitude x
  | points ps => ∀ p ∈ ps, p.x.isFinite = true ∧ p.y.isFinite = true

/-- The points of the last draw are at finite positions. -/
def HasFinitePositions (s : Sampler) : Prop :=
  ∀ p ∈ s.lastPoints, p.x.isFinite = true

theorem halfWidth_isMagnitude (ha : a.isFinite = true) (hb : b.isFinite = true) (hab : a < b)
    (h : halfWidth a b ps = .ok w) : IsMagnitude w := by
  obtain ⟨rfl, hfin⟩ := Rule.finite_eq_ok.1 h
  have hfin : Float.isFinite _ = true := hfin
  obtain ⟨hscaled, hroot⟩ := isFinite_of_mul hfin
  obtain ⟨hfactor, hwidth⟩ := isFinite_of_mul hscaled
  have hfactorNonneg : 0 ≤ Scalar.value (1.96 : Float) :=
    (isMagnitude_iff.1 ⟨hfactor, by decide +kernel⟩).2
  have hab : Scalar.value a < Scalar.value b := (lt_iff ha hb).1 hab
  have hwidthNonneg := (rounds_sub hb ha).value_nonneg hwidth (by linarith)
  have hscaledNonneg := (rounds_mul hfactor hwidth).value_nonneg hscaled (by positivity)
  have hrootNonneg := value_sqrt_nonneg hroot
  exact isMagnitude_iff.2
    ⟨hfin, (rounds_mul hscaled hroot).value_nonneg hfin (mul_nonneg hscaledNonneg hrootNonneg)⟩

theorem Positions.isFinite (hs : s.HasFinitePositions) (h : c.Admitted)
    (hp : Positions s c xs g) : ∀ x ∈ xs, x.isFinite = true := by
  intro x hx
  cases hp with
  | drawn =>
    obtain ⟨ha, hb, hab, -⟩ := h.bounds
    obtain ⟨hax, hxb⟩ := ChaCha.mem_uniforms ha hab x hx
    exact isFinite_of_le ha hb hax (le_of_lt_double hxb)
  | kept _ hlast =>
    obtain ⟨p, hp, rfl⟩ := List.mem_map.1 hx
    refine hs p ?_
    rwa [lastPoints, hlast]

theorem Positions.points (hs : s.HasFinitePositions) (h : c.Admitted)
    (hp : Positions s c (ps.map Point.x) g) : ∀ p ∈ ps, p.x.isFinite = true :=
  fun _ hmem => hp.isFinite hs h _ (List.mem_map_of_mem hmem)

/-- Calls keep the positions of the last draw finite. -/
theorem HasFinitePositions.call (hs : s.HasFinitePositions) (c : Call) :
    (s.call c).2.HasFinitePositions := by
  have hstep := s.step_call c
  generalize s.call c = r at hstep
  obtain ⟨o, s'⟩ := r
  cases hstep with
  | refused | idle | failed => exact hs
  | stored h _ hp _ => exact hp.points hs h

theorem Call.finding_isFinite (h : c.Admitted) {o : Finding} (ho : c.finding ps = .ok o)
    (hps : ∀ p ∈ ps, p.x.isFinite = true ∧ p.y.isFinite = true) : o.IsFinite := by
  obtain ⟨ha, hb, hab, -⟩ := h.bounds
  unfold finding at ho
  split at ho
  · cases hv : estimate c.a c.b ps with
    | error e => rw [hv] at ho; cases ho
    | ok v =>
      rw [hv] at ho
      cases ho
      obtain ⟨rfl, hfin⟩ := Rule.finite_eq_ok.1 hv
      exact hfin
  · cases hw : halfWidth c.a c.b ps with
    | error e => rw [hw] at ho; cases ho
    | ok w =>
      rw [hw] at ho
      cases ho
      rintro x ⟨⟩
      exact halfWidth_isMagnitude ha hb hab hw
  · cases ho
    exact hps

/-- What a call finds is finite. -/
theorem call_isFinite (hs : s.HasFinitePositions) (hf : c.f.IsFinite) {o : Finding}
    (h : (s.call c).1 = .ok o) : o.IsFinite := by
  have hstep := s.step_call c
  generalize s.call c = r at hstep h
  obtain ⟨outcome, s'⟩ := r
  cases hstep with
  | refused | failed => cases h
  | idle => cases h; intro x hx; cases hx
  | stored hadmitted _ hp hps =>
    refine Call.finding_isFinite hadmitted h fun p hmem => ?_
    have hx := hp.points hs hadmitted p hmem
    exact ⟨hx, hf p.x p.y hx (hps p hmem)⟩

end Sampler

/-! ## Methods -/

/-- The factors that may overflow in the bound of a rule; there are none for Monte Carlo. -/
def Rule.factors : Rule → Integrand Float → Float → Float → ℕ → List (Float × Float)
  | fixed r => r.factors
  | monteCarlo => fun _ _ _ _ => []

namespace Method

variable {m : Method} {f : Integrand Float} {a b v w : Float} {n : ℕ} {ps : List Point}

def HasFinitePositions (m : Method) : Prop :=
  match m with
  | fixed _ => True
  | monteCarlo s => s.HasFinitePositions

theorem integrate_isFinite (hm : m.HasFinitePositions) (hf : f.IsFinite)
    (h : (m.integrate f a b n).1 = .ok v) : v.isFinite = true := by
  cases m with
  | fixed r =>
    have h : r.integrate f a b n = .ok v := h
    obtain ⟨_, -, h⟩ := bind_eq_ok.1 h
    obtain ⟨_, -, h⟩ := bind_eq_ok.1 h
    obtain ⟨rfl, hfin⟩ := Rule.finite_eq_ok.1 h
    exact hfin
  | monteCarlo s =>
    have hcall : (s.call ⟨.integrate, f, a, b, n⟩).1 = .ok (.value v) :=
      congrArg (Except.map Sampler.Finding.value) h
    exact Sampler.call_isFinite hm hf hcall

/-- A bound is a magnitude exactly if none of its products overflows. -/
theorem errorBound_isMagnitude (hm : m.HasFinitePositions) (hf : f.IsFinite)
    (h : (m.errorBound f a b n).1 = .ok (some w)) :
    IsMagnitude w ↔ ∀ t ∈ m.rule.factors f a b n, HasProduct t := by
  cases m with
  | fixed r =>
    have h : r.errorBound f a b n = .ok (some w) := h
    obtain ⟨_, hcheck, h⟩ := bind_eq_ok.1 h
    exact FixedRule.isMagnitude_bound (Rule.check_eq_ok.1 (mapError_eq_ok.1 hcheck)).2.1
      (Except.ok.inj h)
  | monteCarlo s =>
    have hcall : (s.call ⟨.errorBound, f, a, b, n⟩).1 = .ok (.bound (some w)) :=
      congrArg (Except.map Sampler.Finding.bound) h
    refine iff_of_true ?_ fun t ht => absurd ht List.not_mem_nil
    exact Sampler.call_isFinite hm hf hcall w rfl

theorem samples_isFinite (hm : m.HasFinitePositions) (hf : f.IsFinite)
    (h : (m.samples f a b n).1 = .ok ps) : ∀ p ∈ ps, p.x.isFinite = true ∧ p.y.isFinite = true := by
  cases m with
  | fixed r => cases h; intro p hp; cases hp
  | monteCarlo s =>
    have hcall : (s.call ⟨.samples, f, a, b, n⟩).1 = .ok (.points ps) :=
      congrArg (Except.map Sampler.Finding.points) h
    exact Sampler.call_isFinite hm hf hcall

end Method

end Quadrature
