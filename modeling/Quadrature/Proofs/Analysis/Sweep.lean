import Quadrature.Proofs.Analysis.Convergence
import Quadrature.Proofs.Rule.Error

/-!
# Sweeps over a range of counts

Stepping through a range meets the numbers of its arithmetic progression up to the limit
(`CountRange.counts_eq`, `mem_counts`), and none that is formed on the way is beyond it. At
every count the methods are where their integrals for the counts before have left them
(`Method.after`), each on its own, so an entry is what the method gives there and a failure
leaves out no other (`sweep_entries`).
-/

namespace Quadrature

/-! ## Counts -/

namespace CountRange

variable {r : CountRange} {k n : ℕ}

/-- How many counts there are. -/
def size (r : CountRange) : ℕ :=
  if max r.start 1 ≤ r.limit then (r.limit - max r.start 1) / max r.step 1 + 1 else 0

/-- The number that is reached in `k` strides. -/
def count (r : CountRange) (k : ℕ) : ℕ :=
  max r.start 1 + k * max r.step 1

theorem stride_pos (r : CountRange) : 0 < max r.step 1 :=
  Nat.lt_of_lt_of_le Nat.one_pos (le_max_right _ _)

theorem lt_size_iff : k < r.size ↔ r.count k ≤ r.limit := by
  rw [size, count]
  split
  · next hle => rw [Nat.lt_succ_iff, Nat.le_div_iff_mul_le r.stride_pos, Nat.le_sub_iff_add_le' hle]
  · next hlt => omega

theorem size_le_limit : r.size ≤ r.limit := by
  rcases Nat.eq_zero_or_pos r.size with h | h
  · omega
  · -- the last count is at least the number of counts
    have hlast : r.count (r.size - 1) ≤ r.limit := lt_size_iff.1 (by omega)
    have hmul : r.size - 1 ≤ (r.size - 1) * max r.step 1 :=
      Nat.le_mul_of_pos_right _ r.stride_pos
    have hstart : 1 ≤ max r.start 1 := le_max_right _ _
    rw [count] at hlast
    omega

/-! ### Stepping -/

/-- The count after `k` strides, if it is within the limit. -/
def count? (r : CountRange) (k : ℕ) : Option ℕ :=
  if k < r.size then some (r.count k) else none

theorem first?_eq : r.first? = r.count? 0 := by
  have hstart : r.count 0 = max r.start 1 := by rw [count, Nat.zero_mul, Nat.add_zero]
  simp only [first?, count?, lt_size_iff, hstart]

theorem next?_count (hk : k < r.size) : r.next? (r.count k) = r.count? (k + 1) := by
  have hle : r.count k ≤ r.limit := lt_size_iff.1 hk
  have hstride : r.count (k + 1) = r.count k + max r.step 1 := by
    rw [count, count, Nat.succ_mul, Nat.add_assoc]
  simp only [next?, count?, lt_size_iff, hstride, Nat.le_sub_iff_add_le' hle]

/-- By induction on the number of counts that are left. -/
theorem countsFrom_count? (k : ℕ) :
    r.countsFrom (r.count? k) = (List.range' k (r.size - k)).map r.count := by
  induction hleft : r.size - k generalizing k with
  | zero =>
    rw [count?, if_neg (by omega), countsFrom]
    rfl
  | succ left ih =>
    have hk : k < r.size := by omega
    rw [count?, if_pos hk, countsFrom, next?_count hk, ih (k + 1) (by omega)]
    rfl

theorem counts_eq : r.counts = (List.range r.size).map r.count := by
  rw [counts, first?_eq, countsFrom_count?, Nat.sub_zero, List.range_eq_range']

theorem mem_counts : n ∈ r.counts ↔ ∃ k, n = r.count k ∧ n ≤ r.limit := by
  simp only [counts_eq, List.mem_map, List.mem_range, lt_size_iff]
  constructor
  · rintro ⟨k, hk, rfl⟩
    exact ⟨k, rfl, hk⟩
  · rintro ⟨k, rfl, hk⟩
    exact ⟨k, hk, rfl⟩

theorem counts_increasing : r.counts.Pairwise (· < ·) := by
  rw [counts_eq, List.pairwise_map]
  refine List.pairwise_lt_range.imp fun {i j} hij => ?_
  exact Nat.add_lt_add_left (Nat.mul_lt_mul_of_pos_right hij r.stride_pos) _

theorem next?_eq_some {n' : ℕ} (hn : n ∈ r.counts) :
    r.next? n = some n' ↔ n' = n + max r.step 1 ∧ n' ≤ r.limit := by
  obtain ⟨-, -, hle⟩ := mem_counts.1 hn
  rw [next?, Option.ite_none_right_eq_some, Option.some.injEq, Nat.le_sub_iff_add_le' hle]
  constructor
  · rintro ⟨hlimit, rfl⟩
    exact ⟨rfl, hlimit⟩
  · rintro ⟨rfl, hlimit⟩
    exact ⟨hlimit, rfl⟩

end CountRange

/-! ## Methods along a sweep -/

variable {f : Integrand Float} {a b : Float} {n i : ℕ} {ns : List ℕ} {m : Method}
  {ms : List Method} {rule : Rule}

/-- A method after its integrals for some counts, one after the other. -/
def Method.after (f : Integrand Float) (a b : Float) (ns : List ℕ) (m : Method) : Method :=
  ns.foldl (fun m n => (m.integrate f a b n).2) m

@[simp] theorem Method.rule_after : (m.after f a b ns).rule = m.rule := by
  induction ns generalizing m with
  | nil => rfl
  | cons n ns ih => exact ih.trans Method.rule_integrate

theorem Method.after_fixed (r : FixedRule) : (fixed r).after f a b ns = fixed r := by
  induction ns with
  | nil => rfl
  | cons n ns ih => exact ih

theorem rules_after : (ms.map (·.after f a b ns)).map Method.rule = ms.map Method.rule := by
  rw [List.map_map]
  exact List.map_congr_left fun m _ => Method.rule_after

theorem ConvergencePoint.measure_snd (ms : List Method) : (measure f a b n ms).2 =
    ms.map fun m => (m.integrate f a b n).2 :=
  List.map_map

/-- A rule has an entry at a count exactly if it is the rule of a method that succeeds there. -/
theorem ConvergencePoint.get?_measure_eq_some (hnd : (ms.map Method.rule).Nodup) {v : Float} :
    (measure f a b n ms).1.values.get? rule = some v ↔
      ∃ m ∈ ms, m.rule = rule ∧ (m.integrate f a b n).1 = .ok v := by
  have hentry {m : Method} (hm : m ∈ ms) :
      (measure f a b n ms).1.values.get? m.rule = some v ↔ (m.integrate f a b n).1 = .ok v := by
    rw [get?_measure hm hnd, toOption_eq_some]
  constructor
  · intro h
    by_cases hrule : rule ∈ ms.map Method.rule
    · obtain ⟨m, hm, rfl⟩ := List.mem_map.1 hrule
      exact ⟨m, hm, rfl, (hentry hm).1 h⟩
    · -- nothing is recorded for a rule that no method has
      have hnone : ∀ run ∈ ms.map (·.integrate f a b n), run.2.rule ≠ rule := by
        rintro run hrun rfl
        obtain ⟨m, hm, rfl⟩ := List.mem_map.1 hrun
        exact hrule (List.mem_map.2 ⟨m, hm, Method.rule_integrate.symm⟩)
      have hempty := get?_foldl_record_of_not_mem (t := .empty) hnone
      rw [show (measure f a b n ms).1.values.get? rule = none from hempty] at h
      cases h
  · rintro ⟨m, hm, rfl, hv⟩
    exact (hentry hm).2 hv

theorem counts_sweep (ns : List ℕ) (ms : List Method) :
    (sweep f a b ns ms).1.map ConvergencePoint.n = ns := by
  induction ns generalizing ms with
  | nil => rfl
  | cons n ns ih => exact congrArg (n :: ·) (ih _)

theorem getElem?_sweep (hn : ns[i]? = some n) (ms : List Method) : (sweep f a b ns ms).1[i]? =
    some (ConvergencePoint.measure f a b n (ms.map (·.after f a b (ns.take i)))).1 := by
  induction ns generalizing i ms with
  | nil => cases hn
  | cons n' ns ih =>
    cases i with
    | zero =>
      cases hn
      exact congrArg (fun ms => some (ConvergencePoint.measure f a b n ms).1) (List.map_id ms).symm
    | succ i =>
      show (sweep f a b ns (ConvergencePoint.measure f a b n' ms).2).1[i]? = _
      rw [ih hn, ConvergencePoint.measure_snd, List.map_map]
      rfl

/-- The counts of a range are, in increasing order, the numbers of its progression that do not
exceed the limit, and no number that is formed does: from each of them the next is reached in
one stride or there is none. A sweep over them has a point for each
count in this order. A rule has an entry there exactly if its method, after its own integrals
for the counts before, has a value; a rule on fixed abscissae has the value that it has alone. -/
theorem sweep_entries (range : CountRange) (f : Integrand Float) (a b : Float) (ms : List Method)
    (hnd : (ms.map Method.rule).Nodup) :
    (range.counts.Pairwise (· < ·) ∧
      (∀ n, n ∈ range.counts ↔
        ∃ k, n = max range.start 1 + k * max range.step 1 ∧ n ≤ range.limit) ∧
      range.size ≤ range.limit ∧ (∀ k < range.size, range.count k ≤ range.limit) ∧
      range.counts = (List.range range.size).map range.count ∧
      ∀ n ∈ range.counts, ∀ n', range.next? n = some n' ↔
        n' = n + max range.step 1 ∧ n' ≤ range.limit) ∧
    (sweep f a b range.counts ms).1.map ConvergencePoint.n = range.counts ∧
    ∀ (i n : ℕ), range.counts[i]? = some n →
      ∃ p, (sweep f a b range.counts ms).1[i]? = some p ∧ p.n = n ∧
        (∀ rule v, p.values.get? rule = some v ↔ ∃ m ∈ ms, m.rule = rule ∧
          ((m.after f a b (range.counts.take i)).integrate f a b n).1 = .ok v) ∧
        ∀ r, .fixed r ∈ ms → p.values.get? (.fixed r) = (r.integrate f a b n).toOption := by
  refine ⟨⟨CountRange.counts_increasing, fun n => CountRange.mem_counts,
    CountRange.size_le_limit, fun k => CountRange.lt_size_iff.1, CountRange.counts_eq,
    fun n hn n' => CountRange.next?_eq_some hn⟩, counts_sweep _ ms, fun i n hn => ?_⟩
  have hnd' : ((ms.map (·.after f a b (range.counts.take i))).map Method.rule).Nodup := by
    rwa [rules_after]
  refine ⟨_, getElem?_sweep hn ms, rfl, fun rule v => ?_, fun r hr => ?_⟩
  · rw [ConvergencePoint.get?_measure_eq_some hnd']
    simp
  · have hmem := List.mem_map_of_mem (f := (·.after f a b (range.counts.take i))) hr
    rw [Method.after_fixed] at hmem
    exact ConvergencePoint.get?_measure hmem hnd'

/-- One panel is too few for the three-eighths rule, and only for it. -/
theorem sweep_entries_square :
    let f := Integrand.ofFunction fun x : Float => x * x
    let points := (sweep f 0.0 1.0 (CountRange.counts ⟨0, 4, 2⟩)
      [.fixed .simpsonThreeEighths, .monteCarlo (.ofSeed 7)]).1
    points.map ConvergencePoint.n = [1, 3] ∧
      ∃ p q, points[0]? = some p ∧ points[1]? = some q ∧
        p.values.get? (.fixed .simpsonThreeEighths) = none ∧
        (p.values.get? .monteCarlo).isSome = true ∧
        (q.values.get? (.fixed .simpsonThreeEighths)).isSome = true := by
  intro f points
  obtain ⟨-, hcounts, hentries⟩ := sweep_entries ⟨0, 4, 2⟩ f 0.0 1.0
    [.fixed .simpsonThreeEighths, .monteCarlo (.ofSeed 7)] (by decide)
  obtain ⟨p, hp, -, hvalues, hfixed⟩ := hentries 0 1 (by decide +kernel)
  obtain ⟨q, hq, -, -, hfixed'⟩ := hentries 1 3 (by decide +kernel)
  refine ⟨hcounts.trans (by decide +kernel), p, q, hp, hq, ?_, ?_, ?_⟩
  · rw [hfixed .simpsonThreeEighths (by decide)]
    decide +kernel
  · have hok : ((Method.monteCarlo (.ofSeed 7)).integrate f 0.0 1.0 1).1.isOk = true := by
      decide +kernel
    obtain ⟨v, hv⟩ := isOk_iff.1 hok
    have hmem : Method.monteCarlo (.ofSeed 7) ∈
        [.fixed .simpsonThreeEighths, .monteCarlo (.ofSeed 7)] := by decide
    rw [(hvalues .monteCarlo v).2 ⟨_, hmem, rfl, hv⟩]
    rfl
  · rw [hfixed' .simpsonThreeEighths (by decide)]
    decide +kernel

end Quadrature
