import Mathlib
import Quadrature.Analysis.Convergence
import Quadrature.Proofs.Rule.Method

/-!
# Sweeps, rule by rule

In a sweep of methods for different rules every method runs its own course: what a rule
has at the counts is what its method gives when it is integrated alone, count after count
(`sweep_course`). So it makes no difference whether the methods are kept apart or shared in
a registry (`Registry.sweep_eq`).
-/

namespace Quadrature

variable {f : Integrand Float} {a b : Float} {n : Nat} {ns : List Nat} {m : Method}
  {ms : List Method} {rule : Rule}

namespace ConvergencePoint

variable {t : RuleTable Float} {runs : List (Except (RuleError Float) Float × Method)}

theorem get?_record (run : Except (RuleError Float) Float × Method) :
    (record t run).get? rule =
      if run.2.rule = rule then run.1.toOption.or (t.get? rule) else t.get? rule := by
  obtain ⟨outcome, m⟩ := run
  cases outcome with
  | ok v =>
    simp only [record, RuleTable.insert]
    split
    · next h => subst h; rw [if_pos rfl]; rfl
    · next h => rw [if_neg fun heq => h heq.symm]
  | error e =>
    simp only [record]
    split <;> rfl

theorem get?_foldl_record_of_not_mem (h : ∀ run ∈ runs, run.2.rule ≠ rule) :
    (runs.foldl record t).get? rule = t.get? rule := by
  induction runs generalizing t with
  | nil => rfl
  | cons run runs ih =>
    rw [List.foldl_cons, ih fun r hr => h r (List.mem_cons_of_mem run hr), get?_record,
      if_neg (h run List.mem_cons_self)]

theorem get?_foldl_record {run : Except (RuleError Float) Float × Method} (hrun : run ∈ runs)
    (hnd : (runs.map fun r => r.2.rule).Nodup) (ht : t.get? run.2.rule = none) :
    (runs.foldl record t).get? run.2.rule = run.1.toOption := by
  induction runs generalizing t with
  | nil => cases hrun
  | cons r runs ih =>
    rw [List.map_cons, List.nodup_cons] at hnd
    obtain ⟨hnot, hnd⟩ := hnd
    rw [List.foldl_cons]
    cases hrun with
    | head =>
      have hne : ∀ r ∈ runs, r.2.rule ≠ run.2.rule :=
        fun r hr heq => hnot (heq ▸ List.mem_map_of_mem (f := fun r => r.2.rule) hr)
      rw [get?_foldl_record_of_not_mem hne, get?_record, if_pos rfl, ht, Option.or_none]
    | tail _ hrun =>
      apply ih hrun hnd
      have hne : r.2.rule ≠ run.2.rule :=
        fun heq => hnot (heq ▸ List.mem_map_of_mem (f := fun r => r.2.rule) hrun)
      rw [get?_record, if_neg hne, ht]

theorem rules_integrate : (ms.map (·.integrate f a b n)).map (fun r => r.2.rule) =
    ms.map Method.rule := by
  rw [List.map_map]
  exact List.map_congr_left fun m _ => Method.rule_integrate

theorem rules_measure : (measure f a b n ms).2.map Method.rule = ms.map Method.rule := by
  have hrules : (ms.map (·.integrate f a b n)).map (fun r => r.2.rule) = ms.map Method.rule :=
    rules_integrate
  rw [← hrules]
  simp only [measure, List.map_map]
  rfl

theorem get?_measure (hm : m ∈ ms) (hnd : (ms.map Method.rule).Nodup) :
    (measure f a b n ms).1.values.get? m.rule = (m.integrate f a b n).1.toOption := by
  have hrun : m.integrate f a b n ∈ ms.map (·.integrate f a b n) := List.mem_map_of_mem hm
  rw [← rules_integrate (f := f) (a := a) (b := b) (n := n)] at hnd
  rw [← Method.rule_integrate (f := f) (a := a) (b := b) (n := n) (m := m)]
  exact get?_foldl_record hrun hnd rfl

end ConvergencePoint

/-- What a method gives alone for one count after the other. -/
def course (f : Integrand Float) (a b : Float) : List Nat → Method → List (Nat × Option Float)
  | [], _ => []
  | n :: ns, m => (n, (m.integrate f a b n).1.toOption) :: course f a b ns (m.integrate f a b n).2

theorem sweep_course (hm : m ∈ ms) (hnd : (ms.map Method.rule).Nodup) :
    (sweep f a b ns ms).1.map (fun p => (p.n, p.values.get? m.rule)) = course f a b ns m := by
  induction ns generalizing m ms with
  | nil => rfl
  | cons n ns ih =>
    have hm' : (m.integrate f a b n).2 ∈ (ConvergencePoint.measure f a b n ms).2 :=
      List.mem_map_of_mem (List.mem_map_of_mem hm)
    have hnd' : ((ConvergencePoint.measure f a b n ms).2.map Method.rule).Nodup := by
      rwa [ConvergencePoint.rules_measure]
    have hrest := ih hm' hnd'
    rw [Method.rule_integrate] at hrest
    rw [course, ← hrest, ← ConvergencePoint.get?_measure hm hnd]
    rfl

theorem rules_sweep : (sweep f a b ns ms).2.map Method.rule = ms.map Method.rule := by
  induction ns generalizing ms with
  | nil => rfl
  | cons n ns ih => exact ih.trans ConvergencePoint.rules_measure

/-- A sweep leaves the methods as they are if none of them draws. -/
theorem sweep_unchanged (h : ∀ m ∈ ms, m.rule ≠ .monteCarlo) :
    (sweep f a b ns ms).2 = ms := by
  induction ns with
  | nil => rfl
  | cons n ns ih =>
    have hpass : (ConvergencePoint.measure f a b n ms).2 = ms := by
      simp only [ConvergencePoint.measure, List.map_map]
      exact (List.map_congr_left fun m hm => Method.integrate_unchanged (h m hm)).trans
        (List.map_id ms)
    show (sweep f a b ns (ConvergencePoint.measure f a b n ms).2).2 = ms
    rw [hpass, ih]

/-! ## Sweeps on a registry -/

/-- A sweep of the rules on the registry they share: at every count they have their turns
one after another, and each method is put back before the next one is looked up. -/
def Registry.sweep (f : Integrand Float) (a b : Float) (rules : List Rule) :
    List Nat → Registry → List ConvergencePoint × Registry
  | [], reg => ([], reg)
  | n :: ns, reg =>
    let (runs, reg) := reg.inTurn (fun m => (m.integrate f a b n, (m.integrate f a b n).2)) rules
    let (points, reg) := sweep f a b rules ns reg
    (⟨n, runs.foldl ConvergencePoint.record .empty⟩ :: points, reg)

theorem Registry.sweep_eq {reg : Registry} (hms : ∀ m ∈ ms, reg.get? m.rule = some m)
    (hnd : (ms.map Method.rule).Nodup) :
    reg.sweep f a b (ms.map Method.rule) ns =
      ((Quadrature.sweep f a b ns ms).1,
        (Quadrature.sweep f a b ns ms).2.foldl .insert reg) := by
  induction ns generalizing ms reg with
  | nil => rw [sweep, Quadrature.sweep, foldl_insert_eq_self hms]
  | cons n ns ih =>
    have hrules : (ConvergencePoint.measure f a b n ms).2.map Method.rule = ms.map Method.rule :=
      ConvergencePoint.rules_measure
    have hturn := inTurn_eq (fun m => (m.integrate f a b n, (m.integrate f a b n).2))
      (fun _ => Method.rule_integrate) hms hnd
    have hrest := @ih (ConvergencePoint.measure f a b n ms).2
      ((ConvergencePoint.measure f a b n ms).2.foldl .insert reg)
      (fun m hm => get?_foldl_insert hm (hrules ▸ hnd)) (hrules ▸ hnd)
    rw [hrules, foldl_insert_foldl_insert rules_sweep] at hrest
    have hmeasure : ms.map (fun m => (m.integrate f a b n).2) =
        (ConvergencePoint.measure f a b n ms).2 := List.map_map.symm
    rw [sweep, hturn]
    dsimp only
    rw [hmeasure, hrest]
    rfl

end Quadrature
