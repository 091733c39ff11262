import Quadrature.Proofs.Rule.Abscissae
import Quadrature.Proofs.Rule.Panels
import Quadrature.Proofs.Rule.Sampler

/-!
# Outcomes of an integral

An integral checks its parameters, takes the values at its abscissae one after another and
combines them (`Method.integrate_eq`). So it fails for its parameters, at the first abscissa
without a value, or because the values combine to something that is not finite, and there is
no other way (`Method.integrate_outcome`). A plan in two pieces is no exception: it asks for
the values of its head and then for those of its tail, each by index, which without rounding
is from left to right.
-/

namespace Quadrature

/-! ## The first failure -/

section Values

variable {α : Type} {f : Integrand α} {xs zs : List α} {x : α} {cause : EvaluationError α}

/-- The integrand has no value at `x`, for the reason `cause`, and a value at all abscissae
before it. -/
def FailsFirst (f : Integrand α) (xs : List α) (x : α) (cause : EvaluationError α) : Prop :=
  ∃ before after, xs = before ++ x :: after ∧ (∀ z ∈ before, ∃ y, f z = .ok y) ∧
    f x = .error cause

theorem failsFirst_iff : FailsFirst f xs x cause ↔ sample f xs = .error (.evaluation x cause) := by
  constructor
  · rintro ⟨before, after, rfl, hbefore, hx⟩
    induction before with
    | nil => rw [List.nil_append, sample_cons, hx]; rfl
    | cons z before ih =>
      obtain ⟨⟨y, hz⟩, hbefore⟩ := List.forall_mem_cons.1 hbefore
      rw [List.cons_append, sample_cons, hz, ih hbefore]
      rfl
  · intro h
    induction xs with
    | nil => cases h
    | cons z xs ih =>
      rw [sample_cons] at h
      cases hz : f z with
      | error cause' =>
        rw [hz] at h
        cases h
        exact ⟨[], xs, rfl, nofun, hz⟩
      | ok y =>
        rw [hz] at h
        cases hs : sample f xs with
        | ok ys => rw [hs] at h; cases h
        | error e =>
          rw [hs] at h
          cases h
          obtain ⟨before, after, rfl, hbefore, hx⟩ := ih hs
          exact ⟨z :: before, after, rfl, List.forall_mem_cons.2 ⟨⟨y, hz⟩, hbefore⟩, hx⟩

/-- Either there is a first failure or there are values at all abscissae. -/
theorem failsFirst_or_values (f : Integrand α) (xs : List α) :
    (∃ x cause, FailsFirst f xs x cause) ∨
      ∃ ys, List.Forall₂ (fun x y => f x = .ok y) xs ys := by
  cases hs : sample f xs with
  | ok ys => exact .inr ⟨ys, sample_eq_ok.1 hs⟩
  | error e =>
    obtain ⟨x, -, cause, -, rfl⟩ := sample_eq_error hs
    exact .inl ⟨x, cause, failsFirst_iff.2 hs⟩

end Values

/-! ## By index -/

/-- The nodes `0` to `k` of `n` panels, as they are computed. -/
def nodesInOrder (a b : Float) (n k : ℕ) : List Float :=
  (List.range (k + 1)).map fun i : ℕ => if i = n then b else a + i * ((b - a) / n)

theorem Grid.nodesTo_eq {g : Grid Float} {k : ℕ} (hk : k + 1 < UInt64.size) :
    g.nodesTo k = nodesInOrder g.a g.b g.panels k := by
  have hcount : Scalar.count Float (k + 1) = k + 1 := Nat.mod_eq_of_lt hk
  rw [nodesTo, hcount]
  rfl

namespace FixedRule

variable {a b : Float} {n : ℕ}

theorem abscissae_midpoint : (midpoint.plan a b n).abscissae =
    (List.range n).map fun i : ℕ => a + (i + 0.5) * ((b - a) / n) := by
  rw [plan, Plan.abscissae_none]
  rfl

section Counted

variable (hn : n + 1 < UInt64.size)

include hn

theorem abscissae_trapezoidal :
    (trapezoidal.plan a b n).abscissae = nodesInOrder a b n n := by
  rw [plan, Plan.abscissae_none]
  exact Grid.nodesTo_eq hn

/-- The nodes of all panels, or those of an even number of panels up to the split point and
after them the two ends of the panel that is left. -/
theorem abscissae_simpson : (simpsonOneThird.plan a b n).abscissae =
    if n % 2 = 0 ∨ n = 1 then nodesInOrder a b n n
    else
      let s := a + (n - 1 : ℕ) * (b - a) / n
      nodesInOrder a s (n - 1) (n - 1) ++ nodesInOrder s b 1 1 := by
  rw [plan]
  by_cases heven : n % 2 = 0
  · rw [if_pos heven, if_pos (.inl heven), Plan.abscissae_none]
    exact Grid.nodesTo_eq hn
  · by_cases hsingle : n = 1
    · subst hsingle
      rw [if_neg heven, if_pos rfl, if_pos (.inr rfl), Plan.abscissae_none]
      exact Grid.nodesTo_eq hn
    · have hhead : n - 1 + 1 < UInt64.size := by omega
      have htail : 1 + 1 < UInt64.size := by decide
      rw [if_neg heven, if_neg hsingle, if_neg (not_or.2 ⟨heven, hsingle⟩), Plan.abscissae_some]
      exact congrArg₂ (· ++ ·) (Grid.nodesTo_eq hhead) (Grid.nodesTo_eq htail)

/-- The nodes of the panels in threes, and after them those of the panels that are left. -/
theorem abscissae_threeEighths : (simpsonThreeEighths.plan a b n).abscissae =
    let m := n - n % 3
    nodesInOrder a b n m ++
      if m < n then nodesInOrder (a + m * ((b - a) / n)) b (n - m) (n - m) else [] := by
  rw [plan]
  dsimp only
  generalize hm : n - n % 3 = m
  have hhead : m + 1 < UInt64.size := by omega
  have htail : n - m + 1 < UInt64.size := by omega
  split_ifs with hleft
  · have hstart : (⟨a, b, n⟩ : Grid Float).node m = a + m * ((b - a) / n) := if_neg hleft.ne
    rw [Plan.abscissae_some, ← hstart]
    exact congrArg₂ (· ++ ·) (Grid.nodesTo_eq hhead) (Grid.nodesTo_eq htail)
  · rw [Plan.abscissae_none, List.append_nil]
    exact Grid.nodesTo_eq hhead

end Counted

/-- The nodes of as many panels as a machine word holds are one too many for it. There the
three-eighths rule, to which no panel is left, has no abscissa at all. -/
theorem abscissae_threeEighths_max :
    (simpsonThreeEighths.plan a b (UInt64.size - 1)).abscissae = [] := by
  have hcut : UInt64.size - 1 - (UInt64.size - 1) % 3 = UInt64.size - 1 := by decide
  have hcount : Scalar.count Float (UInt64.size - 1 + 1) = 0 := by decide
  rw [plan, hcut, if_neg (lt_irrefl _), Plan.abscissae_none, Piece.threeEighths, Grid.nodesTo,
    hcount]
  rfl

end FixedRule

/-- Random positions are those of the generator after as many draws as there are before them. -/
theorem ChaCha.uniforms_eq (g : ChaCha) (a b : Float) (n : ℕ) : (g.uniforms a b n).1 =
    (List.range n).map fun i => (((fun g => (g.uniform a b).2)^[i] g).uniform a b).1 := by
  induction n generalizing g with
  | zero => rfl
  | succ n ih =>
    rw [uniforms_succ, ih, List.range_succ_eq_map, List.map_cons, List.map_map]
    rfl

/-! ## From left to right -/

/-- The nodes up to a cut and those from the cut on are in order if all nodes are. -/
theorem Plan.CutsAt.sorted {p : Plan ℚ} {x : ℕ → ℚ} {n m : ℕ} (h : p.CutsAt x n m)
    (hx : Monotone x) : p.abscissae.Pairwise (· ≤ ·) := by
  obtain ⟨hhead, htail⟩ := h
  have hsorted {is : List ℕ} (his : is.Pairwise (· ≤ ·)) : (is.map x).Pairwise (· ≤ ·) :=
    List.pairwise_map.2 (his.imp fun hij => hx hij)
  rw [abscissae, hhead]
  cases hp : p.tail with
  | none =>
    rw [Option.elim_none, List.append_nil]
    exact hsorted (List.pairwise_lt_range.imp Nat.le_of_lt)
  | some tail =>
    rw [hp] at htail
    split_ifs at htail with hm
    · obtain htail : tail.abscissae = _ := Option.some.inj htail
      rw [Option.elim_some, htail, List.pairwise_append]
      refine ⟨hsorted (List.pairwise_lt_range.imp Nat.le_of_lt),
        hsorted ((List.pairwise_lt_range' 1).imp Nat.le_of_lt), fun z hz w hw => ?_⟩
      obtain ⟨i, hi, rfl⟩ := List.mem_map.1 hz
      obtain ⟨j, hj, rfl⟩ := List.mem_map.1 hw
      rw [List.mem_range] at hi
      rw [List.mem_range'_1] at hj
      exact hx (by omega)
    · cases htail

theorem FixedRule.abscissae_sorted {r : FixedRule} {a b : ℚ} {n : ℕ} (hab : a < b) (hn : n ≠ 0) :
    (r.plan a b n).abscissae.Pairwise (· ≤ ·) := by
  have hpanels : (⟨a, b, n⟩ : Grid ℚ).panels ≠ 0 := hn
  have hstep : 0 ≤ (⟨a, b, n⟩ : Grid ℚ).step :=
    div_nonneg (sub_nonneg.2 hab.le) n.cast_nonneg
  have hnode : Monotone (⟨a, b, n⟩ : Grid ℚ).node := by
    intro i j hij
    rw [Grid.node_exact hpanels, Grid.node_exact hpanels]
    gcongr
  cases r with
  | trapezoidal => exact (cutsAt_trapezoidal hpanels).sorted hnode
  | simpsonOneThird => exact (cutsAt_simpson hpanels).sorted hnode
  | simpsonThreeEighths => exact (cutsAt_threeEighths hpanels).sorted hnode
  | midpoint =>
    rw [plan, Plan.abscissae_none]
    refine List.pairwise_map.2 (List.pairwise_lt_range.imp fun {i j} hij => ?_)
    rw [Grid.midpoint_exact, Grid.midpoint_exact]
    gcongr

/-! ## Integrals -/

theorem Rule.finite_of_not_isFinite {α : Type} [Scalar α] {rule : Rule} {v : α}
    (h : Scalar.isFinite v = false) : rule.finite v = .error (.nonFinite rule) := by
  rw [finite, h, if_neg Bool.false_ne_true]

theorem FixedRule.integrate_eq {α : Type} [Scalar α] (r : FixedRule) (f : Integrand α) (a b : α)
    (n : ℕ) : r.integrate f a b n =
      (((Rule.fixed r).check a b n).mapError .parameter).bind fun _ =>
        (sample f (r.plan a b n).abscissae).bind fun ys =>
          (Rule.fixed r).finite ((r.plan a b n).combine ys) := by
  rw [integrate, Plan.integrate_eq]
  cases (Rule.fixed r).check a b n with
  | error e => rfl
  | ok _ => cases sample f (r.plan a b n).abscissae <;> rfl

theorem FixedRule.errorBound_eq_error {α : Type} [Scalar α] {r : FixedRule} {f : Integrand α}
    {a b : α} {n : ℕ} {e : RuleError α} : r.errorBound f a b n = .error e ↔
      ∃ p, e = .parameter p ∧ (Rule.fixed r).check a b n = .error p := by
  rw [errorBound]
  cases (Rule.fixed r).check a b n with
  | error p =>
    show Except.error (RuleError.parameter p) = .error e ↔ _
    simp [eq_comm]
  | ok _ =>
    show Except.ok (r.bound? f a b n) = .error e ↔ _
    simp

namespace Method

variable {m : Method} {f : Integrand Float} {a b : Float} {n : ℕ}

/-- What the values at the abscissae come to. -/
def combine (m : Method) (a b : Float) (n : ℕ) (ys : List Float) : Float :=
  match m with
  | fixed r => (r.plan a b n).combine ys
  | monteCarlo _ => (b - a) * mean ys

theorem integrate_eq (m : Method) (f : Integrand Float) (a b : Float) (n : ℕ) :
    (m.integrate f a b n).1 =
      ((m.rule.check a b n).mapError .parameter).bind fun _ =>
        (sample f (m.abscissae a b n)).bind fun ys => m.rule.finite (m.combine a b n ys) := by
  cases m with
  | fixed r => exact r.integrate_eq f a b n
  | monteCarlo s =>
    show (s.integrate f a b n).1 = ((Rule.monteCarlo.check a b n).mapError .parameter).bind _
    rw [Sampler.integrate, Sampler.guarded]
    cases Rule.monteCarlo.check a b n with
    | error e => rfl
    | ok _ =>
      show ((s.draw f a b n).1.bind (Sampler.estimate a b)) =
        (sample f (s.generator.uniforms a b n).1).bind _
      rw [Sampler.draw]
      dsimp only
      cases hs : sample f (s.generator.uniforms a b n).1 with
      | error e => rw [Sampler.evaluateAt, hs]; rfl
      | ok ys =>
        obtain ⟨ps, hx, rfl, hps⟩ := exists_points hs
        rw [← hx, Sampler.evaluateAt_points hps]
        rfl

theorem integrate_refused {e : ParameterError Float} (h : m.rule.check a b n = .error e) :
    (m.integrate f a b n).1 = .error (.parameter e) := by
  rw [integrate_eq, h]
  rfl

theorem integrate_failed {x : Float} {cause : EvaluationError Float}
    (h : m.rule.check a b n = .ok ()) (hf : FailsFirst f (m.abscissae a b n) x cause) :
    (m.integrate f a b n).1 = .error (.evaluation x cause) := by
  rw [integrate_eq, h, failsFirst_iff.1 hf]
  rfl

theorem integrate_combined {ys : List Float} (h : m.rule.check a b n = .ok ())
    (hys : List.Forall₂ (fun x y => f x = .ok y) (m.abscissae a b n) ys) :
    (m.integrate f a b n).1 = m.rule.finite (m.combine a b n ys) := by
  rw [integrate_eq, h, sample_eq_ok.2 hys]
  rfl

/-- How an integral can end: its parameters are refused, the integrand fails at the first of
the abscissae without a value, or the values combine to a number, which may not be finite. -/
inductive Outcome (m : Method) (f : Integrand Float) (a b : Float) (n : ℕ) :
    Except (RuleError Float) Float → Prop where
  | refused {e : ParameterError Float} : m.rule.check a b n = .error e →
      Outcome m f a b n (.error (.parameter e))
  | failed {x : Float} {cause : EvaluationError Float} : m.rule.check a b n = .ok () →
      FailsFirst f (m.abscissae a b n) x cause → Outcome m f a b n (.error (.evaluation x cause))
  | nonFinite {ys : List Float} : m.rule.check a b n = .ok () →
      List.Forall₂ (fun x y => f x = .ok y) (m.abscissae a b n) ys →
      (m.combine a b n ys).isFinite = false → Outcome m f a b n (.error (.nonFinite m.rule))
  | value {ys : List Float} : m.rule.check a b n = .ok () →
      List.Forall₂ (fun x y => f x = .ok y) (m.abscissae a b n) ys →
      (m.combine a b n ys).isFinite = true → Outcome m f a b n (.ok (m.combine a b n ys))

theorem outcome_integrate (m : Method) (f : Integrand Float) (a b : Float) (n : ℕ) :
    m.Outcome f a b n (m.integrate f a b n).1 := by
  cases h : m.rule.check a b n with
  | error e =>
    rw [integrate_refused h]
    exact .refused h
  | ok _ =>
    rcases failsFirst_or_values f (m.abscissae a b n) with ⟨x, cause, hf⟩ | ⟨ys, hys⟩
    · rw [integrate_failed h hf]
      exact .failed h hf
    · rw [integrate_combined h hys]
      cases hv : (m.combine a b n ys).isFinite with
      | false =>
        rw [Rule.finite_of_not_isFinite hv]
        exact .nonFinite h hys hv
      | true =>
        rw [Rule.finite_eq_ok.2 ⟨rfl, hv⟩]
        exact .value h hys hv

theorem Outcome.eq {o : Except (RuleError Float) Float} (h : m.Outcome f a b n o) :
    (m.integrate f a b n).1 = o := by
  cases h with
  | refused h => exact integrate_refused h
  | failed h hf => exact integrate_failed h hf
  | nonFinite h hys hv => rw [integrate_combined h hys, Rule.finite_of_not_isFinite hv]
  | value h hys hv => rw [integrate_combined h hys, Rule.finite_eq_ok.2 ⟨rfl, hv⟩]

/-- An integral ends in one of the ways of `Outcome`, and in which of them is decided by the
check of the rule, then by the abscissae from the first on, then by the number to which the
values combine. The abscissae of a fixed rule are nodes or midpoints by index, those of its
tail after those of its head, which without rounding is from left to right; random ones are in
the order of their draw. The error bound of a fixed rule fails only for parameters that the
rule refuses, whatever the integrand does. -/
theorem integrate_outcome (m : Method) (f : Integrand Float) (a b : Float) (n : ℕ) :
    (∀ o, (m.integrate f a b n).1 = o ↔ m.Outcome f a b n o) ∧
      (∀ (r : FixedRule) (e : RuleError Float), ((fixed r).errorBound f a b n).1 = .error e ↔
        ∃ p, e = .parameter p ∧ (Rule.fixed r).check a b n = .error p) ∧
      (∀ (r : FixedRule) (a b : ℚ) (n : ℕ), (Rule.fixed r).check a b n = .ok () →
        (r.plan a b n).abscissae.Pairwise (· ≤ ·)) ∧
      (n + 1 < UInt64.size →
        (fixed .trapezoidal).abscissae a b n = nodesInOrder a b n n ∧
        (fixed .midpoint).abscissae a b n =
          (List.range n).map (fun i : ℕ => a + (i + 0.5) * ((b - a) / n)) ∧
        (fixed .simpsonOneThird).abscissae a b n =
          (if n % 2 = 0 ∨ n = 1 then nodesInOrder a b n n
          else
            let s := a + (n - 1 : ℕ) * (b - a) / n
            nodesInOrder a s (n - 1) (n - 1) ++ nodesInOrder s b 1 1) ∧
        (fixed .simpsonThreeEighths).abscissae a b n =
          let m := n - n % 3
          nodesInOrder a b n m ++
            if m < n then nodesInOrder (a + m * ((b - a) / n)) b (n - m) (n - m) else []) ∧
      ∀ s : Sampler, (monteCarlo s).abscissae a b n = (List.range n).map fun i =>
        (((fun g => (g.uniform a b).2)^[i] s.generator).uniform a b).1 := by
  refine ⟨fun o => ⟨?_, Outcome.eq⟩, fun r e => ?_, fun r a b n h => ?_, fun hn => ?_,
    fun s => s.generator.uniforms_eq a b n⟩
  · rintro rfl
    exact outcome_integrate m f a b n
  · exact FixedRule.errorBound_eq_error
  · obtain ⟨hbounds, hn, -⟩ := Rule.check_eq_ok.1 h
    obtain ⟨-, -, hab, -⟩ := checkBounds_eq_ok.1 hbounds
    exact FixedRule.abscissae_sorted hab hn
  · exact ⟨FixedRule.abscissae_trapezoidal hn, FixedRule.abscissae_midpoint,
      FixedRule.abscissae_simpson hn, FixedRule.abscissae_threeEighths hn⟩

/-- So the value over as many panels as a machine word holds does not depend on the integrand. -/
theorem integrate_threeEighths_max (f f' : Integrand Float) (a b : Float) :
    (fixed .simpsonThreeEighths).integrate f a b (UInt64.size - 1) =
      (fixed .simpsonThreeEighths).integrate f' a b (UInt64.size - 1) := by
  refine integrate_congr fun x hx => ?_
  rw [abscissae, FixedRule.abscissae_threeEighths_max] at hx
  cases hx

end Method

end Quadrature
