import Mathlib
import Quadrature.Proofs.Rule.Pieces

/-!
# Rules panel by panel

Without rounding a composite rule is a sum over the panels of one grid: the grids of its head
and of the panels left over are parts of the whole (`Plan.continued`), with the nodes of the
whole, and meet at one node (`Plan.CutsAt`). Main statement: `integrate_eq_panels`.
-/

open Finset

namespace Quadrature

/-! ## Plans -/

namespace Plan

variable {f : Integrand ℚ} {g : Grid ℚ} {x y : ℕ → ℚ} {head : Piece ℚ} {u : ℚ} {m n : ℕ}

/-- Of `n` panels between the nodes `x` the head takes those before `m` and the tail the
others, if there are any. -/
def CutsAt (p : Plan ℚ) (x : ℕ → ℚ) (n m : ℕ) : Prop :=
  p.head.abscissae = (List.range (m + 1)).map x ∧
    p.tail.map Piece.abscissae =
      if m < n then some ((List.range' m (n + 1 - m)).map x) else none

/-- Trapezoids after the first `m` panels of a grid. -/
def continued (head : Piece ℚ) (g : Grid ℚ) (m : ℕ) : Plan ℚ :=
  ⟨head, if m < g.panels then some (.trapezoidal (g.part m g.panels)) else none⟩

theorem integrate_continued (hg : g.panels ≠ 0) (hhead : head.integrate f = .ok u)
    (hf : ∀ i ≤ g.panels, f (g.node i) = .ok (y i)) :
    (continued head g m).integrate f =
      .ok (u + ∑ i ∈ Ico m g.panels, trapezoidPanel g.step y i) := by
  rw [continued, integrate, hhead]
  split_ifs with hm
  · have htail := Piece.integrate_trapezoidal_part hg hm hf
    simp only [htail]
    rfl
  · rw [Ico_eq_empty hm, sum_empty, add_zero]
    rfl

theorem cutsAt_continued (hg : g.panels ≠ 0)
    (hhead : head.abscissae = (List.range (m + 1)).map g.node) :
    (continued head g m).CutsAt g.node g.panels m := by
  refine ⟨hhead, ?_⟩
  rw [continued]
  split_ifs with hm
  · have hnode : (g.part m g.panels).node = g.node ∘ (m + ·) :=
      funext fun i => Grid.node_part hg hm i
    show some ((List.range (g.panels - m + 1)).map (g.part m g.panels).node) = _
    rw [hnode, List.range'_eq_map_range, List.map_map, Nat.sub_add_comm hm.le]
  · rfl

end Plan

namespace FixedRule

variable {f : Integrand ℚ} {g : Grid ℚ} {y : ℕ → ℚ} {a b : ℚ} {n : ℕ} {r : FixedRule}

theorem integrate_exact (hab : a < b) (hn : (Rule.fixed r).minPanels ≤ n) :
    r.integrate f a b n = (r.plan a b n).integrate f := by
  rw [integrate, Rule.check_exact hab hn]
  cases (r.plan a b n).integrate f with
  | error e => rfl
  | ok v =>
    show (Rule.fixed r).finite v = .ok v
    exact Rule.finite_exact

/-! ### Plans as heads with trapezoids after them -/

theorem plan_trapezoidal :
    trapezoidal.plan g.a g.b g.panels = .continued (.trapezoidal g) g g.panels := by
  rw [Plan.continued, if_neg (lt_irrefl _)]
  rfl

theorem plan_simpson (hg : 2 ≤ g.panels) : simpsonOneThird.plan g.a g.b g.panels =
    .continued (.simpson (g.part 0 (2 * (g.panels / 2)))) g (2 * (g.panels / 2)) := by
  have hne : g.panels ≠ 0 := by omega
  rcases Nat.mod_two_eq_zero_or_one g.panels with h | h
  · have hcut : 2 * (g.panels / 2) = g.panels := by omega
    rw [hcut, Grid.part_all hne, Plan.continued, if_neg (lt_irrefl _), plan, if_pos h]
  · have hcut : 2 * (g.panels / 2) = g.panels - 1 := by omega
    have hlt : g.panels - 1 < g.panels := by omega
    have hsingle : g.panels - (g.panels - 1) = 1 := by omega
    rw [hcut, Plan.continued, if_pos hlt, plan, if_neg (by omega), if_neg (by omega),
      Grid.splitPoint_exact hne, Grid.part, Grid.part, Grid.node_zero hne, Grid.node_panels,
      hsingle]
    rfl

theorem plan_simpson_one : simpsonOneThird.plan a b 1 = trapezoidal.plan a b 1 := rfl

theorem plan_threeEighths : simpsonThreeEighths.plan g.a g.b g.panels =
    .continued (.threeEighths g (3 * (g.panels / 3))) g (3 * (g.panels / 3)) := by
  have hcut : g.panels - g.panels % 3 = 3 * (g.panels / 3) := by omega
  rw [plan, hcut, Plan.continued, Grid.part, Grid.node_panels]

/-! ### Integrals panel by panel -/

theorem integrate_midpoint (hab : g.a < g.b) (hg : 1 ≤ g.panels)
    (hf : ∀ i < g.panels, f (g.midpoint i) = .ok (y i)) :
    midpoint.integrate f g.a g.b g.panels = .ok (∑ i ∈ range g.panels, g.step * y i) := by
  have hpiece := Piece.integrate_midpoint hf
  rw [integrate_exact hab hg, plan, Plan.integrate]
  dsimp only
  rw [hpiece]
  rfl

section Integrals

variable (hab : g.a < g.b) (hf : ∀ i ≤ g.panels, f (g.node i) = .ok (y i))

include hab hf

theorem integrate_trapezoidal (hg : 1 ≤ g.panels) : trapezoidal.integrate f g.a g.b g.panels =
    .ok (∑ i ∈ range g.panels, trapezoidPanel g.step y i) := by
  have hne : g.panels ≠ 0 := by omega
  rw [integrate_exact hab hg, plan_trapezoidal,
    Plan.integrate_continued hne (Piece.integrate_trapezoidal hne hf) hf, Ico_self, sum_empty,
    add_zero]

theorem integrate_simpson (hg : 1 ≤ g.panels) : simpsonOneThird.integrate f g.a g.b g.panels =
    .ok (∑ j ∈ range (g.panels / 2), simpsonPair g.step y (2 * j) +
      ∑ i ∈ Ico (2 * (g.panels / 2)) g.panels, trapezoidPanel g.step y i) := by
  rcases Nat.eq_or_lt_of_le hg with hone | htwo
  · -- a single panel has a plan without pairs, not one with an empty head
    have hsame : simpsonOneThird.integrate f g.a g.b g.panels =
        trapezoidal.integrate f g.a g.b g.panels := by
      rw [integrate_exact hab hg, integrate_exact hab hg, ← hone, plan_simpson_one]
    rw [hsame, integrate_trapezoidal hab hf hg, ← hone]
    simp
  · have hne : g.panels ≠ 0 := by omega
    have hhead : ∀ i ≤ 2 * (g.panels / 2), f (g.node i) = .ok (y i) :=
      fun i hi => hf i (by omega)
    rw [integrate_exact hab hg, plan_simpson htwo,
      Plan.integrate_continued hne (Piece.integrate_simpson_part hne (by omega) hhead) hf]

theorem integrate_threeEighths (hg : 3 ≤ g.panels) :
    simpsonThreeEighths.integrate f g.a g.b g.panels =
      .ok (∑ j ∈ range (g.panels / 3), threeEighthsTriple g.step y (3 * j) +
        ∑ i ∈ Ico (3 * (g.panels / 3)) g.panels, trapezoidPanel g.step y i) := by
  have hne : g.panels ≠ 0 := by omega
  have hhead : ∀ i ≤ 3 * (g.panels / 3), f (g.node i) = .ok (y i) :=
    fun i hi => hf i (by omega)
  rw [integrate_exact hab hg, plan_threeEighths,
    Plan.integrate_continued hne (Piece.integrate_threeEighths (by omega) hhead) hf]

end Integrals

/-! ### Where the panels are cut -/

theorem cutsAt_trapezoidal (hg : g.panels ≠ 0) :
    (trapezoidal.plan g.a g.b g.panels).CutsAt g.node g.panels g.panels := by
  rw [plan_trapezoidal]
  exact Plan.cutsAt_continued hg rfl

theorem cutsAt_simpson (hg : g.panels ≠ 0) :
    (simpsonOneThird.plan g.a g.b g.panels).CutsAt g.node g.panels
      (if g.panels = 1 then 1 else 2 * (g.panels / 2)) := by
  split_ifs with hone
  · have hcut := cutsAt_trapezoidal hg
    rw [hone] at hcut ⊢
    exact hcut
  · have hnode : (g.part 0 (2 * (g.panels / 2))).node = g.node :=
      funext fun i => by rw [Grid.node_part hg (by omega), zero_add]
    rw [plan_simpson (by omega)]
    exact Plan.cutsAt_continued hg (congrArg (List.map · _) hnode)

theorem cutsAt_threeEighths (hg : g.panels ≠ 0) :
    (simpsonThreeEighths.plan g.a g.b g.panels).CutsAt g.node g.panels (3 * (g.panels / 3)) := by
  rw [plan_threeEighths]
  exact Plan.cutsAt_continued hg rfl

/-- The panel that is left over when the panels are taken in pairs. -/
theorem sum_unpaired (u : ℕ → ℚ) (n : ℕ) :
    ∑ i ∈ Ico (2 * (n / 2)) n, u i = if n % 2 = 1 then u (n - 1) else 0 := by
  split_ifs with hodd
  · obtain ⟨k, rfl⟩ : ∃ k, n = 2 * k + 1 := ⟨n / 2, by omega⟩
    have hcut : 2 * ((2 * k + 1) / 2) = 2 * k := by omega
    rw [hcut, Nat.Ico_succ_singleton, sum_singleton, Nat.add_sub_cancel]
  · rw [Ico_eq_empty (by omega), sum_empty]

/-- On `n` panels of width `h`, at whose nodes `a + i * h` the integrand has the values `y`,
the trapezoidal rule adds up all panels; Simpson's rule takes them in pairs and the last one of
an odd number under a chord; the three-eighths rule takes them in threes and the one or two
that are left under chords. The head of each plan has the nodes before the cut and the tail
those after it. -/
theorem integrate_eq_panels {h : ℚ} (hab : a < b) (hn : 1 ≤ n) (hh : h = (b - a) / n)
    (hf : ∀ i ≤ n, f (a + i * h) = .ok (y i)) :
    a + n * h = b ∧
    (trapezoidal.integrate f a b n = .ok (∑ i ∈ range n, trapezoidPanel h y i) ∧
      (trapezoidal.plan a b n).CutsAt (fun i => a + i * h) n n) ∧
    (simpsonOneThird.integrate f a b n = .ok (∑ j ∈ range (n / 2), simpsonPair h y (2 * j) +
        if n % 2 = 1 then trapezoidPanel h y (n - 1) else 0) ∧
      (simpsonOneThird.plan a b n).CutsAt (fun i => a + i * h) n
        (if n = 1 then 1 else n - n % 2)) ∧
    (3 ≤ n → simpsonThreeEighths.integrate f a b n =
        .ok (∑ j ∈ range (n / 3), threeEighthsTriple h y (3 * j) +
          ∑ i ∈ Ico (n - n % 3) n, trapezoidPanel h y i) ∧
      (simpsonThreeEighths.plan a b n).CutsAt (fun i => a + i * h) n (n - n % 3)) := by
  have hne : (⟨a, b, n⟩ : Grid ℚ).panels ≠ 0 := by show n ≠ 0; omega
  have hstep : (⟨a, b, n⟩ : Grid ℚ).step = h := hh.symm
  have hnode : (⟨a, b, n⟩ : Grid ℚ).node = fun i : ℕ => a + i * h :=
    funext fun i => hstep ▸ Grid.node_exact hne i
  have hvalues : ∀ i ≤ n, f ((⟨a, b, n⟩ : Grid ℚ).node i) = .ok (y i) := by rwa [hnode]
  have hcut2 : 2 * (n / 2) = n - n % 2 := by omega
  have hcut3 : 3 * (n / 3) = n - n % 3 := by omega
  have htrapezoidal := integrate_trapezoidal (g := ⟨a, b, n⟩) hab hvalues hn
  have hsimpson := integrate_simpson (g := ⟨a, b, n⟩) hab hvalues hn
  have hthree := integrate_threeEighths (g := ⟨a, b, n⟩) hab hvalues
  have cut1 := cutsAt_trapezoidal hne
  have cut2 := cutsAt_simpson hne
  have cut3 := cutsAt_threeEighths hne
  have hlast : (⟨a, b, n⟩ : Grid ℚ).node n = b := Grid.node_panels
  dsimp only at htrapezoidal hsimpson hthree cut1 cut2 cut3
  rw [hnode] at cut1 cut2 cut3 hlast
  rw [hstep] at htrapezoidal hsimpson hthree
  rw [sum_unpaired] at hsimpson
  rw [hcut2] at cut2
  rw [hcut3] at cut3 hthree
  exact ⟨hlast, ⟨htrapezoidal, cut1⟩, ⟨hsimpson, cut2⟩, fun hn => ⟨hthree hn, cut3⟩⟩

/-- Five panels leave one to a chord after two pairs and two after a triple. -/
theorem integrate_eq_panels_square :
    let f := Integrand.ofFunction fun x : ℚ => x * x
    trapezoidal.integrate f 0 5 5 = .ok (85 / 2) ∧
      simpsonOneThird.integrate f 0 5 5 = .ok (251 / 6) ∧
      simpsonThreeEighths.integrate f 0 5 5 = .ok 42 := by
  intro f
  have hf : ∀ i : ℕ, i ≤ 5 → f (0 + i * 1) = .ok ((i : ℚ) ^ 2) := by
    intro i _
    exact congrArg Except.ok (by ring)
  obtain ⟨-, ⟨htrapezoidal, -⟩, ⟨hsimpson, -⟩, hthree⟩ :=
    integrate_eq_panels (f := f) (y := fun i => (i : ℚ) ^ 2) (a := 0) (b := 5) (n := 5) (h := 1)
      (by norm_num) (by norm_num) (by norm_num) hf
  rw [htrapezoidal, hsimpson, (hthree (by norm_num)).1]
  norm_num [sum_range_succ, sum_Ico_succ_top, trapezoidPanel, simpsonPair, threeEighthsTriple]

end FixedRule

end Quadrature
