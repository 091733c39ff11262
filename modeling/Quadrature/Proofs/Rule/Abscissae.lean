import Quadrature.Proofs.Random.Uniform
import Quadrature.Proofs.Rule.Error
import Quadrature.Proofs.Scalar.Arithmetic
import Quadrature.Rule.Method

/-!
# Abscissae in doubles

Where the steps of a grid are not subnormal and no product overflows on the way, rounding
does not lead out of the interval: every abscissa of a method is a finite double between the
bounds (`mem_abscissae_within`, `ChaCha.mem_uniforms`). The bound on the steps carries the
argument: the relative errors of a width, a step and a product together are less than the
half panel by which every abscissa but the last stays away from the end (`rounded_steps`).
-/

namespace Quadrature

/-- A finite double between two others. -/
structure Within (a b x : Float) : Prop where
  isFinite : x.isFinite = true
  ge : a ≤ x
  le : x ≤ b

section Within

variable {a b x y : Float} {q z : ℚ}

theorem within_iff (ha : a.isFinite = true) (hb : b.isFinite = true) : Within a b x ↔
    x.isFinite = true ∧ Scalar.value a ≤ Scalar.value x ∧ Scalar.value x ≤ Scalar.value b := by
  constructor
  · rintro ⟨hx, hax, hxb⟩
    exact ⟨hx, (le_iff ha hx).1 hax, (le_iff hx hb).1 hxb⟩
  · rintro ⟨hx, hax, hxb⟩
    exact ⟨hx, (le_iff ha hx).2 hax, (le_iff hx hb).2 hxb⟩

/-- A number between two doubles is rounded to one between them. -/
theorem Rounds.within (h : Rounds q x) (ha : a.isFinite = true) (hb : b.isFinite = true)
    (haq : Scalar.value a ≤ q) (hqb : q ≤ Scalar.value b) : Within a b x := by
  refine ⟨h.isFinite_iff.2 (abs_lt.2 ⟨?_, ?_⟩), h.below a ha haq, h.above b hb hqb⟩
  · exact (abs_lt.1 (abs_value_lt ha)).1.trans_le haq
  · exact hqb.trans_lt (abs_lt.1 (abs_value_lt hb)).2

theorem Within.trans {s : Float} (h : Within s b x) (hs : Within a b s) (ha : a.isFinite = true)
    (hb : b.isFinite = true) : Within a b x := by
  obtain ⟨hsf, has, hsb⟩ := (within_iff ha hb).1 hs
  obtain ⟨hx, hsx, hxb⟩ := (within_iff hsf hb).1 h
  exact (within_iff ha hb).2 ⟨hx, has.trans hsx, hxb⟩

theorem within_add {p : Float} (ha : a.isFinite = true) (hb : b.isFinite = true)
    (hp : p.isFinite = true) (hp0 : 0 ≤ Scalar.value p)
    (hpb : Scalar.value p ≤ Scalar.value b - Scalar.value a) : Within a b (a + p) :=
  (rounds_add ha hp).within ha hb (by linarith) (by linarith)

end Within

/-! ## One step -/

/-- The least step at which rounding is relative to the step, with room to halve it. -/
def leastStep : ℚ := 2 ^ (-1021 : ℤ)

section Steps

variable {k : ℕ} {a b s t : Float} {B : ℚ}

theorem leastStep_pos : 0 < leastStep := by
  unfold leastStep
  positivity

theorem half_leastStep : 2 ^ (-1022 : ℤ) = 1 / 2 * leastStep := by
  rw [leastStep, show (-1021 : ℤ) = -1022 + 1 from rfl, zpow_add_one₀ two_ne_zero]
  ring

theorem representable_steps (hk : k ≤ 2 ^ 49) : Representable (k * leastStep) :=
  ⟨k, -1021, by omega, by norm_num, abs_of_nonneg (mul_nonneg k.cast_nonneg leastStep_pos.le)⟩

theorem representable_leastStep : Representable leastStep :=
  representable_zpow (by norm_num)

theorem steps_lt_overflow (hk : k ≤ 2 ^ 49) : k * leastStep < overflow := by
  have hone : leastStep ≤ 1 := zpow_le_one_of_nonpos₀ (by norm_num) (by norm_num)
  have hk : (k : ℚ) < 2 ^ (53 : ℤ) := by exact_mod_cast (show k < 2 ^ 53 by omega)
  calc (k : ℚ) * leastStep ≤ k * 1 := by gcongr
    _ < 2 ^ (53 : ℤ) := by rwa [mul_one]
    _ ≤ overflow := zpow_le_overflow (by norm_num)

/-- Three relative roundings are made up for by half a panel: a width `W` for `D`, a step
`H` for the part of it and some steps `T * H`. -/
theorem rounded_steps {K T H W D : ℚ} (hK : 0 < K) (hK49 : K ≤ 2 ^ 49) (hT0 : 0 ≤ T)
    (hT : T ≤ K - 1 / 2) (hH0 : 0 ≤ H) (hH : H ≤ W / K * (1 + 2 ^ (-52 : ℤ))) (hW0 : 0 ≤ W)
    (hW : W ≤ D * (1 + 2 ^ (-52 : ℤ))) :
    T * H ≤ W ∧ T * H * (1 + 2 ^ (-52 : ℤ)) ≤ D := by
  obtain ⟨c, hc⟩ : ∃ c : ℚ, c = 1 + 2 ^ (-52 : ℤ) := ⟨_, rfl⟩
  have hunit : 1 ≤ c := by
    rw [hc]
    exact le_add_of_nonneg_right (by positivity)
  have hthree : (K - 1 / 2) * c ^ 3 ≤ K := by
    rw [hc]
    norm_num
    linarith
  rw [← hc] at hH hW ⊢
  have hD : 0 ≤ D := nonneg_of_mul_nonneg_left (hW0.trans hW) (by linarith)
  have hsteps : 0 ≤ K - 1 / 2 := hT0.trans hT
  constructor
  · calc T * H ≤ (K - 1 / 2) * (W / K * c) := by gcongr
      _ = (K - 1 / 2) * c * (W / K) := by ring
      _ ≤ (K - 1 / 2) * c ^ 3 * (W / K) := by
          gcongr
          exact le_self_pow₀ hunit (by norm_num)
      _ ≤ K * (W / K) := by gcongr
      _ = W := mul_div_cancel₀ _ hK.ne'
  · calc T * H * c ≤ (K - 1 / 2) * (D * c / K * c) * c := by
          gcongr
          exact hH.trans (by gcongr)
      _ = (K - 1 / 2) * c ^ 3 * (D / K) := by ring
      _ ≤ K * (D / K) := by gcongr
      _ = D := mul_div_cancel₀ _ hK.ne'

/-- The width of an interval and the step of a grid on it are finite and not negative. -/
theorem step_nonneg (ha : a.isFinite = true) (hs : s.isFinite = true)
    (has : Scalar.value a ≤ Scalar.value s) (hw : (s - a).isFinite = true) (hk0 : 0 < k)
    (hk : k ≤ 2 ^ 49) :
    0 ≤ Scalar.value (s - a) ∧ Rounds (Scalar.value (s - a) / k) ((s - a) / k) ∧
      ((s - a) / k).isFinite = true ∧ 0 ≤ Scalar.value ((s - a) / k) := by
  obtain ⟨hkf, hkv⟩ := value_natCast (n := k) (by omega)
  have hkpos : (1 : ℚ) ≤ k := by exact_mod_cast hk0
  have hwidth := (rounds_sub hs ha).value_nonneg hw (by linarith)
  have hround := rounds_div hw hkf (by rw [hkv]; positivity)
  rw [hkv] at hround
  have hquotient : 0 ≤ Scalar.value (s - a) / k := by positivity
  have hstep : ((s - a) / k).isFinite = true := by
    refine hround.isFinite_of_le (rounds_value hw) hw ?_
    rw [abs_of_nonneg hquotient, abs_of_nonneg hwidth]
    exact div_le_self hwidth hkpos
  exact ⟨hwidth, hround, hstep, hround.value_nonneg hstep hquotient⟩

/-- Some steps of a grid of `k` panels up to `s` lead no farther than an interval that has
room for `k` steps. -/
theorem advance_le (ha : a.isFinite = true) (hs : s.isFinite = true)
    (has : Scalar.value a ≤ Scalar.value s) (hw : (s - a).isFinite = true) (hk0 : 0 < k)
    (hk : k ≤ 2 ^ 49) (ht : t.isFinite = true) (hhalf : 1 / 2 ≤ Scalar.value t)
    (htk : Scalar.value t ≤ k - 1 / 2) (hsB : Scalar.value s - Scalar.value a ≤ B)
    (hB : k * leastStep ≤ B) :
    (t * ((s - a) / k)).isFinite = true ∧ 0 ≤ Scalar.value (t * ((s - a) / k)) ∧
      Scalar.value (t * ((s - a) / k)) ≤ B := by
  obtain ⟨hwidth, hround, hstepFinite, hstep⟩ := step_nonneg ha hs has hw hk0 hk
  have hwidthRound := rounds_sub hs ha
  have hrep := representable_steps hk
  have hkpos : (0 : ℚ) < k := by exact_mod_cast hk0
  have hproduct := rounds_mul ht hstepFinite
  set w := s - a
  set h := w / (k : Float)
  have hnonneg : 0 ≤ Scalar.value t * Scalar.value h := by positivity
  rcases le_or_gt (k * leastStep) (Scalar.value s - Scalar.value a) with hlarge | hsmall
  · -- each of the three roundings is relative
    have hone : leastStep ≤ k * leastStep :=
      le_mul_of_one_le_left leastStep_pos.le (by exact_mod_cast hk0)
    have hwidthLow : k * leastStep ≤ Scalar.value w := hwidthRound.representable_le hw hrep hlarge
    have hwidthHigh := hwidthRound.value_le hw (by linarith [half_leastStep, leastStep_pos])
    have hquotient : leastStep ≤ Scalar.value w / k := by rwa [le_div_iff₀ hkpos, mul_comm]
    have hstepLow : leastStep ≤ Scalar.value h :=
      hround.representable_le hstepFinite representable_leastStep hquotient
    have hstepHigh := hround.value_le hstepFinite (by linarith [half_leastStep, leastStep_pos])
    obtain ⟨hle, hlast⟩ := rounded_steps hkpos (by exact_mod_cast hk) (by linarith) htk hstep
      hstepHigh hwidth hwidthHigh
    have hfinite : (t * h).isFinite = true := by
      refine hproduct.isFinite_of_le (rounds_value hw) hw ?_
      rwa [abs_of_nonneg hnonneg, abs_of_nonneg hwidth]
    have hnormal : 2 ^ (-1022 : ℤ) ≤ Scalar.value t * Scalar.value h := by
      rw [half_leastStep]
      exact mul_le_mul hhalf hstepLow leastStep_pos.le (by linarith)
    exact ⟨hfinite, hproduct.value_nonneg hfinite hnonneg,
      ((hproduct.value_le hfinite hnormal).trans hlast).trans hsB⟩
  · -- the steps are no longer than the least one
    have hwidthHigh : Scalar.value w ≤ k * leastStep :=
      hwidthRound.le_representable hw hrep hsmall.le
    have hstepHigh : Scalar.value h ≤ leastStep := by
      refine hround.le_representable hstepFinite representable_leastStep ?_
      rwa [div_le_iff₀ hkpos, mul_comm]
    have hle : Scalar.value t * Scalar.value h ≤ k * leastStep :=
      mul_le_mul (by linarith) hstepHigh hstep hkpos.le
    have hfinite : (t * h).isFinite = true := by
      rw [hproduct.isFinite_iff, abs_of_nonneg hnonneg]
      exact hle.trans_lt (steps_lt_overflow hk)
    exact ⟨hfinite, hproduct.value_nonneg hfinite hnonneg,
      (hproduct.le_representable hfinite hrep hle).trans hB⟩

/-- No steps lead nowhere. -/
theorem advance_zero {h : Float} (hh : h.isFinite = true) (ht : t.isFinite = true)
    (hzero : Scalar.value t = 0) : (t * h).isFinite = true ∧ Scalar.value (t * h) = 0 := by
  have hround := rounds_mul ht hh
  rw [hzero, zero_mul] at hround
  exact hround.exact representable_zero (by simpa using overflow_pos)

end Steps

/-! ## Grids -/

namespace Grid

variable {g : Grid Float} {b t : Float} {i : ℕ}

/-- The interval from the beginning of a grid to `b` contains the grid and has room for as
many least steps as there are panels. -/
structure HasRoom (g : Grid Float) (b : Float) : Prop where
  first : g.a.isFinite = true
  last : Within g.a b g.b
  bound : b.isFinite = true
  width : (g.b - g.a).isFinite = true
  pos : 0 < g.panels
  panels : g.panels ≤ 2 ^ 49
  room : g.panels * leastStep ≤ Scalar.value b - Scalar.value g.a

theorem HasRoom.advance (h : g.HasRoom b) (ht : t.isFinite = true)
    (hhalf : Scalar.value t = 0 ∨ 1 / 2 ≤ Scalar.value t)
    (htk : Scalar.value t ≤ g.panels - 1 / 2) : Within g.a b (g.a + t * g.step) := by
  obtain ⟨hlast, hle, hleb⟩ := (within_iff h.first h.bound).1 h.last
  rcases hhalf with hzero | hhalf
  · obtain ⟨-, -, hstep, -⟩ := step_nonneg h.first hlast hle h.width h.pos h.panels
    obtain ⟨hfinite, hvalue⟩ := advance_zero hstep ht hzero
    exact within_add h.first h.bound hfinite hvalue.ge (hvalue.trans_le (by linarith))
  · obtain ⟨hfinite, hlow, hhigh⟩ := advance_le h.first hlast hle h.width h.pos h.panels ht hhalf
      htk (by linarith) h.room
    exact within_add h.first h.bound hfinite hlow hhigh

theorem HasRoom.node (h : g.HasRoom b) (hi : i ≤ g.panels) : Within g.a b (g.node i) := by
  have hpanels := h.panels
  rw [Grid.node]
  split
  · exact h.last
  · next hne =>
    obtain ⟨hif, hiv⟩ := value_natCast (n := i) (by omega)
    refine h.advance hif ?_ ?_
    · rw [hiv]
      rcases Nat.eq_zero_or_pos i with rfl | hpos
      · exact .inl Nat.cast_zero
      · have : (1 : ℚ) ≤ i := by exact_mod_cast hpos
        exact .inr (by linarith)
    · have : (i : ℚ) + 1 ≤ g.panels := by exact_mod_cast (show i + 1 ≤ g.panels by omega)
      rw [hiv]
      linarith

theorem HasRoom.midpoint (h : g.HasRoom b) (hi : i < g.panels) :
    Within g.a b (g.midpoint i) := by
  have hpanels := h.panels
  obtain ⟨hif, hiv⟩ := value_half (i := i) (by omega)
  refine h.advance hif ?_ ?_
  · have : (0 : ℚ) ≤ i := i.cast_nonneg
    rw [hiv]
    exact .inr (by linarith)
  · have : (i : ℚ) + 1 ≤ g.panels := by exact_mod_cast hi
    rw [hiv]
    linarith

/-- The first node is where the grid begins, however small its step is. -/
theorem value_node_zero (ha : g.a.isFinite = true) (hb : g.b.isFinite = true)
    (hab : Scalar.value g.a ≤ Scalar.value g.b) (hw : (g.b - g.a).isFinite = true)
    (hpos : 0 < g.panels) (hpanels : g.panels ≤ 2 ^ 49) :
    (g.node 0).isFinite = true ∧ Scalar.value (g.node 0) = Scalar.value g.a := by
  obtain ⟨-, -, hstep, -⟩ := step_nonneg ha hb hab hw hpos hpanels
  obtain ⟨hif, hiv⟩ := value_natCast (n := 0) (by norm_num)
  obtain ⟨hfinite, hvalue⟩ := advance_zero hstep hif (hiv.trans Nat.cast_zero)
  have hround := rounds_add ha hfinite
  rw [hvalue, add_zero] at hround
  rw [node, if_neg hpos.ne]
  exact hround.exact (representable_value ha) (abs_value_lt ha)

theorem node_zero_within (ha : g.a.isFinite = true) (hb : g.b.isFinite = true)
    (hab : Scalar.value g.a ≤ Scalar.value g.b) (hw : (g.b - g.a).isFinite = true)
    (hpos : 0 < g.panels) (hpanels : g.panels ≤ 2 ^ 49) : Within g.a g.b (g.node 0) := by
  obtain ⟨hfinite, hvalue⟩ := value_node_zero ha hb hab hw hpos hpanels
  exact (within_iff ha hb).2 ⟨hfinite, hvalue.ge, hvalue.trans_le hab⟩

/-- The middle of two panels, however small they are. -/
theorem node_one_within {s : Float} (hs : s.isFinite = true) (hb : b.isFinite = true)
    (hsb : Scalar.value s ≤ Scalar.value b) (hw : (b - s).isFinite = true) :
    Within s b ((⟨s, b, 2⟩ : Grid Float).node 1) := by
  obtain ⟨hwidth, hround, hstepFinite, hstep⟩ :=
    step_nonneg hs hb hsb hw (k := 2) (by norm_num) (by norm_num)
  have hwidthRound := rounds_sub hb hs
  obtain ⟨hif, hiv⟩ := value_natCast (n := 1) (by norm_num)
  have hproduct := rounds_mul hif hstepFinite
  rw [hiv, Nat.cast_one, one_mul] at hproduct
  obtain ⟨hfinite, hvalue⟩ :=
    hproduct.exact (representable_value hstepFinite) (abs_value_lt hstepFinite)
  have hnode : (⟨s, b, 2⟩ : Grid Float).node 1 = s + (1 : ℕ) * ((b - s) / (2 : ℕ)) := by
    rw [node, if_neg (by norm_num)]
    rfl
  rw [hnode]
  refine within_add hs hb hfinite (hvalue ▸ hstep) (hvalue.trans_le ?_)
  have hD : 0 ≤ Scalar.value b - Scalar.value s := by linarith
  have hhalf : Scalar.value (b - s) / (2 : ℕ) ≤ Scalar.value (b - s) :=
    div_le_self hwidth (by norm_num)
  rcases lt_or_ge (Scalar.value b - Scalar.value s) leastStep with hsmall | hlarge
  · have hexact := hwidthRound.exact
      (representable_sub hs hb (by rwa [abs_of_nonneg hD])) (hwidthRound.abs_lt_overflow hw)
    rw [← hexact.2]
    exact hround.le_representable hstepFinite (representable_value hw) hhalf
  · have hwidthHigh := hwidthRound.value_le hw (by linarith [half_leastStep, leastStep_pos])
    have hwidthLow := hwidthRound.representable_le hw representable_leastStep hlarge
    have htwo : ((2 : ℕ) : ℚ) = 2 := Nat.cast_two
    rw [htwo] at hround
    have hstepHigh := hround.value_le hstepFinite (by linarith [half_leastStep])
    have hunit : (2 : ℚ) ^ (-52 : ℤ) ≤ 1 / 4 := by norm_num
    generalize (2 : ℚ) ^ (-52 : ℤ) = c at hwidthHigh hstepHigh hunit
    nlinarith

end Grid

/-! ## Rules -/

section Rules

variable {a b x : Float} {n : ℕ}

/-- Where a split point can be computed without overflow it lies in the interval. -/
theorem splitPoint_within (h : (⟨a, b, n⟩ : Grid Float).HasRoom b) (hn : 2 ≤ n)
    (hproduct : (((n - 1 : ℕ) : Float) * (b - a)).isFinite = true) :
    Within a b (splitPoint a b n) := by
  obtain ⟨ha, hlast, hb, hw, -, hpanels, hroom⟩ := h
  dsimp only at ha hlast hw hpanels hroom
  obtain ⟨-, hab, -⟩ := (within_iff ha hb).1 hlast
  obtain ⟨hkf, hkv⟩ := value_natCast (n := n - 1) (by omega)
  obtain ⟨hnf, hnv⟩ := value_natCast (n := n) (by omega)
  have hnpos : (2 : ℚ) ≤ n := by exact_mod_cast hn
  have hk : ((n - 1 : ℕ) : ℚ) = n - 1 := by
    rw [Nat.cast_sub (by omega), Nat.cast_one]
  have hn49 : (n : ℚ) ≤ 2 ^ 49 := by exact_mod_cast hpanels
  have hwidthRound := rounds_sub hb ha
  have hproductRound := rounds_mul hkf hw
  have hquotientRound := rounds_div hproduct hnf (by rw [hnv]; linarith)
  rw [hkv, hk] at hproductRound
  rw [hnv] at hquotientRound
  have hsplit : splitPoint a b n = a + ((n - 1 : ℕ) : Float) * (b - a) / (n : Float) := rfl
  rw [hsplit]
  have hleast := leastStep_pos
  have hhalf := half_leastStep
  have hone : leastStep ≤ n * leastStep := le_mul_of_one_le_left hleast.le (by linarith)
  have hwidthLow := hwidthRound.representable_le hw (representable_steps hpanels) hroom
  have hwidthHigh := hwidthRound.value_le hw (by linarith)
  have hwidth : 0 ≤ Scalar.value (b - a) := by linarith
  set w := b - a
  set p := ((n - 1 : ℕ) : Float) * w
  have hwp : Scalar.value w ≤ (n - 1) * Scalar.value w :=
    le_mul_of_one_le_left hwidth (by linarith)
  have hproductLow := hproductRound.representable_le hproduct (representable_value hw) hwp
  have hproductHigh := hproductRound.value_le hproduct (by linarith)
  have hquotientLow : leastStep ≤ Scalar.value p / n := by
    rw [le_div_iff₀ (by linarith), mul_comm]
    linarith
  have hnonneg : 0 ≤ Scalar.value p / n := by linarith
  have hfinite : (p / (n : Float)).isFinite = true := by
    refine hquotientRound.isFinite_of_le (rounds_value hproduct) hproduct ?_
    rw [abs_of_nonneg hnonneg, abs_of_nonneg (by linarith)]
    exact div_le_self (by linarith) (by linarith)
  have hquotientHigh := hquotientRound.value_le hfinite (by linarith)
  have hc : (0 : ℚ) ≤ 1 + 2 ^ (-52 : ℤ) := by positivity
  obtain ⟨-, hlast⟩ := rounded_steps (K := n) (T := n - 1) (W := Scalar.value w)
    (H := Scalar.value w / n * (1 + 2 ^ (-52 : ℤ))) (by linarith) hn49 (by linarith) (by linarith)
    (by positivity) le_rfl hwidth hwidthHigh
  refine within_add ha hb hfinite (hquotientRound.value_nonneg hfinite hnonneg) ?_
  calc Scalar.value (p / (n : Float)) ≤ Scalar.value p / n * (1 + 2 ^ (-52 : ℤ)) := hquotientHigh
    _ ≤ (n - 1) * Scalar.value w * (1 + 2 ^ (-52 : ℤ)) / n * (1 + 2 ^ (-52 : ℤ)) := by gcongr
    _ = (n - 1) * (Scalar.value w / n * (1 + 2 ^ (-52 : ℤ))) * (1 + 2 ^ (-52 : ℤ)) := by ring
    _ ≤ _ := hlast

/-- What a fixed rule asks of an interval and a number of panels for rounding not to lead
out of the interval: not too many panels, steps that are not subnormal, and for a split
point a product that does not overflow. -/
structure FixedRule.HasRoom (r : FixedRule) (a b : Float) (n : ℕ) : Prop where
  panels : n ≤ 2 ^ 49
  room : n * leastStep ≤ Scalar.value b - Scalar.value a
  product : r = .simpsonOneThird → n % 2 = 1 →
    (((n - 1 : ℕ) : Float) * (b - a)).isFinite = true

/-- Where the number of nodes does not fit a machine word, not all of them are among the
abscissae. -/
theorem Grid.exists_of_mem_nodesTo {g : Grid Float} {k : ℕ} (hx : x ∈ g.nodesTo k) :
    ∃ i ≤ k, g.node i = x := by
  obtain ⟨i, hi, rfl⟩ := List.mem_map.1 hx
  have hlt : i < k + 1 := (List.mem_range.1 hi).trans_le (Nat.mod_le _ _)
  exact ⟨i, Nat.le_of_lt_succ hlt, rfl⟩

theorem Grid.HasRoom.nodesTo {g : Grid Float} (h : g.HasRoom b) {k : ℕ} (hk : k ≤ g.panels)
    (hx : x ∈ g.nodesTo k) : Within g.a b x := by
  obtain ⟨i, hi, rfl⟩ := Grid.exists_of_mem_nodesTo hx
  exact h.node (hi.trans hk)

/-- A part of an interval is no wider than the whole. -/
theorem Within.sub_isFinite {s t : Float} (hs : Within a b s) (ht : Within a b t)
    (ha : a.isFinite = true) (hb : b.isFinite = true) (hst : Scalar.value s ≤ Scalar.value t)
    (hw : (b - a).isFinite = true) : (t - s).isFinite = true := by
  obtain ⟨hsf, has, -⟩ := (within_iff ha hb).1 hs
  obtain ⟨htf, -, htb⟩ := (within_iff ha hb).1 ht
  refine (rounds_sub htf hsf).isFinite_of_le (rounds_sub hb ha) hw ?_
  rw [abs_of_nonneg (by linarith), abs_of_nonneg (by linarith)]
  linarith

/-- The panels up to a point of the interval. -/
theorem Grid.HasRoom.upTo {s : Float} (h : (⟨a, b, n⟩ : Grid Float).HasRoom b)
    (hs : Within a b s) (hn : 2 ≤ n) : (⟨a, s, n - 1⟩ : Grid Float).HasRoom b := by
  obtain ⟨ha, hlast, hb, hw, -, hpanels, hroom⟩ := h
  dsimp only at ha hlast hw hpanels hroom
  obtain ⟨hsf, has, hsb⟩ := (within_iff ha hb).1 hs
  have hfirst : Within a b a := (within_iff ha hb).2 ⟨ha, le_rfl, has.trans hsb⟩
  have hfewer : ((n - 1 : ℕ) : ℚ) ≤ n := by exact_mod_cast n.sub_le 1
  refine ⟨ha, hs, hb, hfirst.sub_isFinite hs ha hb has hw, show 0 < n - 1 by omega,
    show n - 1 ≤ 2 ^ 49 by omega, ?_⟩
  exact (mul_le_mul_of_nonneg_right hfewer leastStep_pos.le).trans hroom

/-- The panels that are left at the end of an interval, one or two of them. -/
theorem tail_within {s : Float} {k : ℕ} (ha : a.isFinite = true) (hb : b.isFinite = true)
    (hs : Within a b s) (hw : (b - a).isFinite = true) (hk : k = 1 ∨ k = 2)
    (hx : x ∈ (⟨s, b, k⟩ : Grid Float).nodes) : Within a b x := by
  obtain ⟨hsf, has, hsb⟩ := (within_iff ha hb).1 hs
  have hend : Within a b b := (within_iff ha hb).2 ⟨hb, has.trans hsb, le_rfl⟩
  have hws : (b - s).isFinite = true := hs.sub_isFinite hend ha hb hsb hw
  have hlast : Within s b b := (within_iff hsf hb).2 ⟨hb, hsb, le_rfl⟩
  refine Within.trans ?_ hs ha hb
  obtain ⟨i, hi, rfl⟩ := Grid.exists_of_mem_nodesTo hx
  have hi : i ≤ k := hi
  by_cases hik : i = k
  · rw [Grid.node, if_pos hik]
    exact hlast
  rcases Nat.eq_zero_or_pos i with rfl | hpos
  · exact Grid.node_zero_within (g := ⟨s, b, k⟩) hsf hb hsb hws (show 0 < k by omega)
      (show k ≤ 2 ^ 49 by omega)
  · obtain ⟨rfl, rfl⟩ : k = 2 ∧ i = 1 := by omega
    exact Grid.node_one_within hsf hb hsb hws

@[simp] theorem Plan.abscissae_none {α : Type} (head : Piece α) :
    (⟨head, none⟩ : Plan α).abscissae = head.abscissae :=
  List.append_nil _

@[simp] theorem Plan.abscissae_some {α : Type} (head tail : Piece α) :
    (⟨head, some tail⟩ : Plan α).abscissae = head.abscissae ++ tail.abscissae := rfl

theorem Plan.mem_abscissae {α : Type} {p : Plan α} {x : α} :
    x ∈ p.abscissae ↔ x ∈ p.head.abscissae ∨ ∃ q, p.tail = some q ∧ x ∈ q.abscissae := by
  obtain ⟨head, tail⟩ := p
  cases tail <;> simp

theorem FixedRule.mem_abscissae_within {r : FixedRule}
    (hcheck : (Rule.fixed r).check a b n = .ok ()) (h : r.HasRoom a b n)
    (hx : x ∈ (r.plan a b n).abscissae) : Within a b x := by
  obtain ⟨hbounds, hn, hmin⟩ := Rule.check_eq_ok.1 hcheck
  obtain ⟨ha, hb, hab, hw⟩ := checkBounds_eq_ok.1 hbounds
  have hab := ((lt_iff ha hb).1 hab).le
  have hroom : (⟨a, b, n⟩ : Grid Float).HasRoom b :=
    ⟨ha, (within_iff ha hb).2 ⟨hb, hab, le_rfl⟩, hb, hw, Nat.pos_of_ne_zero hn, h.panels, h.room⟩
  obtain hx | ⟨q, hq, hx⟩ := Plan.mem_abscissae.1 hx
  · cases r with
    | trapezoidal => exact hroom.nodesTo le_rfl hx
    | midpoint =>
      obtain ⟨i, hi, rfl⟩ := List.mem_map.1 hx
      exact hroom.midpoint (List.mem_range.1 hi)
    | simpsonOneThird =>
      rw [plan] at hx
      split_ifs at hx with heven hone
      · exact hroom.nodesTo le_rfl hx
      · subst hone
        exact hroom.nodesTo le_rfl hx
      · have hsplit := splitPoint_within hroom (by omega) (h.product rfl (by omega))
        exact (hroom.upTo hsplit (by omega)).nodesTo le_rfl hx
    | simpsonThreeEighths => exact hroom.nodesTo (Nat.sub_le n _) hx
  · cases r with
    | trapezoidal | midpoint => cases hq
    | simpsonOneThird =>
      rw [plan] at hq
      split_ifs at hq with heven hone
      obtain rfl := Option.some.inj hq
      have hsplit := splitPoint_within hroom (by omega) (h.product rfl (by omega))
      exact tail_within ha hb hsplit hw (.inl rfl) hx
    | simpsonThreeEighths =>
      rw [plan] at hq
      dsimp only at hq
      split_ifs at hq with htail
      obtain rfl := Option.some.inj hq
      have hstart := hroom.node (Nat.sub_le n (n % 3))
      exact tail_within ha hb hstart hw (by omega) hx

end Rules

/-! ## Plans -/

namespace Plan

variable {α : Type} [Scalar α]

/-- What the values at the abscissae come to. -/
def combine (p : Plan α) (ys : List α) : α :=
  match p.tail with
  | none => p.head.value ys
  | some tail =>
    p.head.value (ys.take p.head.abscissae.length) +
      tail.value (ys.drop p.head.abscissae.length)

theorem integrate_eq (p : Plan α) (f : Integrand α) :
    p.integrate f = (sample f p.abscissae).map p.combine := by
  obtain ⟨head, tail⟩ := p
  cases tail with
  | none =>
    rw [integrate, abscissae_none, Piece.integrate]
    cases sample f head.abscissae <;> rfl
  | some tail =>
    show ((sample f head.abscissae).map head.value).bind (fun u =>
      ((sample f tail.abscissae).map tail.value).bind fun v => .ok (u + v)) = _
    rw [abscissae_some, sample_append]
    cases hhead : sample f head.abscissae with
    | error e => rfl
    | ok ys =>
      have hlength : ys.length = head.abscissae.length := (sample_eq_ok.1 hhead).length_eq.symm
      cases sample f tail.abscissae with
      | error e => rfl
      | ok zs =>
        show Except.ok (head.value ys + tail.value zs) =
          .ok (combine ⟨head, some tail⟩ (ys ++ zs))
        rw [combine, ← hlength, List.take_left, List.drop_left]

end Plan

/-! ## Methods -/

section Methods

variable {f f' : Integrand Float} {a b : Float} {n : ℕ} {m : Method}

/-- Where a method evaluates its integrand. -/
def Method.abscissae (m : Method) (a b : Float) (n : ℕ) : List Float :=
  match m with
  | fixed r => (r.plan a b n).abscissae
  | monteCarlo s => (s.generator.uniforms a b n).1

theorem Plan.integrate_congr {α : Type} [Scalar α] {f f' : Integrand α} {p : Plan α}
    (h : ∀ x ∈ p.abscissae, f x = f' x) : p.integrate f = p.integrate f' := by
  rw [integrate_eq, integrate_eq, sample_congr h]

/-- An integral takes nothing from its integrand but the values at the abscissae. -/
theorem Method.integrate_congr (h : ∀ x ∈ m.abscissae a b n, f x = f' x) :
    m.integrate f a b n = m.integrate f' a b n := by
  cases m with
  | fixed r =>
    have hplan : (r.plan a b n).integrate f = (r.plan a b n).integrate f' := Plan.integrate_congr h
    rw [integrate, integrate, FixedRule.integrate, FixedRule.integrate, hplan]
  | monteCarlo s =>
    have hdraw : s.draw f a b n = s.draw f' a b n := by
      have hsample := sample_congr h
      rw [abscissae] at hsample
      rw [Sampler.draw, Sampler.draw]
      unfold Sampler.evaluateAt
      dsimp only
      rw [hsample]
    rw [integrate, integrate, Sampler.integrate, Sampler.integrate, Sampler.guarded,
      Sampler.guarded]
    dsimp only
    rw [hdraw]

/-- Random positions ask for nothing. -/
def Method.HasRoom (m : Method) (a b : Float) (n : ℕ) : Prop :=
  match m with
  | fixed r => r.HasRoom a b n
  | monteCarlo _ => True

/-- Every abscissa is a finite double between the bounds, and there are no others at which
the integrand is evaluated. -/
theorem Method.abscissae_within (hcheck : m.rule.check a b n = .ok ()) (hroom : m.HasRoom a b n) :
    (∀ x ∈ m.abscissae a b n, Within a b x) ∧
      ∀ f f' : Integrand Float, (∀ x ∈ m.abscissae a b n, f x = f' x) →
        m.integrate f a b n = m.integrate f' a b n := by
  refine ⟨fun x hx => ?_, fun f f' => integrate_congr⟩
  cases m with
  | fixed r => exact FixedRule.mem_abscissae_within hcheck hroom hx
  | monteCarlo s =>
    obtain ⟨ha, hb, hab, -⟩ := checkBounds_eq_ok.1 (Rule.check_eq_ok.1 hcheck).1
    obtain ⟨hax, hxb⟩ := ChaCha.mem_uniforms ha hab x hx
    exact ⟨isFinite_of_le ha hb hax (le_of_lt_double hxb), hax, le_of_lt_double hxb⟩

theorem Method.abscissae_within_unit :
    (fixed .simpsonOneThird).HasRoom 0.0 1.0 3 ∧
      ∀ x ∈ (fixed .simpsonOneThird).abscissae 0.0 1.0 3, Within 0.0 1.0 x := by
  have hcheck : (fixed .simpsonOneThird).rule.check (0.0 : Float) 1.0 3 = .ok () := by rfl
  have hroom : (fixed .simpsonOneThird).HasRoom 0.0 1.0 3 := by
    refine ⟨by norm_num, ?_, fun _ _ => by rfl⟩
    have hleast : leastStep ≤ 2 ^ (-2 : ℤ) := zpow_le_zpow_right₀ (by norm_num) (by norm_num)
    rw [value_literal_one.2, value_literal_zero.2]
    norm_num at hleast ⊢
    linarith
  exact ⟨hroom, (abscissae_within hcheck hroom).1⟩

/-- Bounds are admitted on which a product overflows or the steps are subnormal, and an
abscissa is not finite or lies beyond the end. -/
theorem Method.abscissae_outside :
    (checkBounds (-8e307 : Float) 8e307 = .ok () ∧
      ∃ x ∈ (fixed .simpsonOneThird).abscissae (-8e307) 8e307 3, x.isFinite = false) ∧
    (checkBounds (0.0 : Float) 2.5e-323 = .ok () ∧
      ∃ x ∈ (fixed .trapezoidal).abscissae 0.0 2.5e-323 8, 2.5e-323 < x) := by
  refine ⟨⟨checkBounds_eq_ok.2 ?_, ?_⟩, ⟨checkBounds_eq_ok.2 ?_, ?_⟩⟩ <;> decide +kernel

end Methods

end Quadrature
