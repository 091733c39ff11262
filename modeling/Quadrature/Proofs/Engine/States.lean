import Quadrature.Proofs.Engine.Answer
import Quadrature.Proofs.Rule.Sampler

/-!
# States of an engine

The engines that arise from a configuration are the fresh ones and those that calculations
leave. They keep their configuration and their range of counts, they have all rules, and
what every operation on a method keeps holds of all their methods (`Arises.method`).
-/

namespace Quadrature

/-- What every operation on a method keeps, whatever it is asked for. -/
structure Method.Kept (P : Method → Prop) : Prop where
  integrate : ∀ {m} f a b n, P m → P (m.integrate f a b n).2
  errorBound : ∀ {m} f a b n, P m → P (m.errorBound f a b n).2
  samples : ∀ {m} f a b n, P m → P (m.samples f a b n).2

/-- A property of the sampler of a method, if there is one. -/
def Method.OfSampler (P : Sampler → Prop) : Method → Prop
  | fixed _ => True
  | monteCarlo s => P s

/-- What all calls on a sampler keep is kept by the operations on its method. -/
theorem Method.kept_ofSampler {P : Sampler → Prop} (hP : ∀ s c, P s → P (s.call c).2) :
    Kept (OfSampler P) where
  integrate {m} f a b n h := by
    cases m with
    | fixed r => trivial
    | monteCarlo s => exact hP s ⟨.integrate, f, a, b, n⟩ h
  errorBound {m} f a b n h := by
    cases m with
    | fixed r => trivial
    | monteCarlo s => exact hP s ⟨.errorBound, f, a, b, n⟩ h
  samples {m} f a b n h := by
    cases m with
    | fixed r => trivial
    | monteCarlo s => exact hP s ⟨.samples, f, a, b, n⟩ h

theorem Method.ofSampler_ofRule {P : Sampler → Prop} (hP : ∀ seed, P (.ofSeed seed))
    (seed : UInt64) (rule : Rule) : (ofRule seed rule).OfSampler P := by
  cases rule with
  | fixed r => trivial
  | monteCarlo => exact hP seed

theorem Method.Kept.sweep {P : Method → Prop} (hP : Method.Kept P) {f : Integrand Float}
    {a b : Float} {ns : List Nat} {ms : List Method} (h : ∀ m ∈ ms, P m) :
    ∀ m ∈ (sweep f a b ns ms).2, P m := by
  induction ns generalizing ms with
  | nil => exact h
  | cons n ns ih =>
    refine ih fun m hm => ?_
    simp only [List.map_map, List.mem_map] at hm
    obtain ⟨m', hm', rfl⟩ := hm
    exact hP.integrate f a b n (h m' hm')

/-- What is found in a registry after insertions was put in or was there before. -/
theorem Registry.mem_of_get?_foldl_insert {reg : Registry} {ms : List Method} {rule : Rule}
    {m : Method} (h : (ms.foldl insert reg).get? rule = some m) :
    m ∈ ms ∨ reg.get? rule = some m := by
  induction ms generalizing reg with
  | nil => exact .inr h
  | cons m' ms ih =>
    rcases ih h with hm | hreg
    · exact .inl (List.mem_cons_of_mem m' hm)
    · rw [get?_insert] at hreg
      split at hreg
      · cases hreg
        exact .inl List.mem_cons_self
      · exact .inr hreg

theorem Registry.isSome_get?_foldl_insert {reg : Registry} {ms : List Method} {rule : Rule}
    (h : (reg.get? rule).isSome = true) : ((ms.foldl insert reg).get? rule).isSome = true := by
  induction ms generalizing reg with
  | nil => exact h
  | cons m ms ih =>
    refine ih ?_
    rw [get?_insert]
    split
    · rfl
    · exact h

namespace Engine

theorem kept_runOf {P : Method → Prop} (hP : Method.Kept P) {m : Method} {f : Integrand Float}
    {a b : Float} {n : Nat} {exact : Option Float} (h : P m) :
    P (resultOf m f a b n exact).2 ∧ P (runOf m f a b n exact).method := by
  have hresult : P (resultOf m f a b n exact).2 := by
    cases hint : (m.integrate f a b n).1 with
    | error cause =>
      rw [resultOf_of_error hint]
      exact hP.integrate f a b n h
    | ok v =>
      rw [resultOf_of_ok hint]
      exact hP.errorBound f a b n (hP.integrate f a b n h)
  rw [runOf_eq]
  exact ⟨hresult, hP.samples f a b n hresult⟩

variable [Elementary Float]

/-- The engines that arise from a configuration. -/
inductive Arises (c : Configuration) : Engine → Prop
  | made (entropy : UInt64) : Arises c (ofConfiguration c entropy)
  | calculated {e : Engine} (h : Arises c e) (stamp : Stamp) (r : Request) :
      Arises c (e.calculate stamp r).2

/-- What becomes of an engine: nothing, or its registry takes back the methods that were
used. -/
theorem calculate_snd (e : Engine) (stamp : Stamp) (r : Request) :
    (e.calculate stamp r).2 = e ∨ ∃ p ms subject, Answer e r p (e.calculate stamp r).2 ms subject := by
  rcases hcalc : e.calculate stamp r with ⟨cause | p, e'⟩
  · left
    unfold calculate at hcalc
    cases hprepare : e.prepare r with
    | error cause' => rw [hprepare] at hcalc; cases hcalc; rfl
    | ok prepared => rw [hprepare] at hcalc; cases hcalc
  · obtain ⟨ms, subject, hA⟩ := calculate_eq_ok hcalc
    exact .inr ⟨p, ms, subject, hA⟩

namespace Arises

variable {c : Configuration} {e : Engine}

theorem constant (h : Arises c e) : e.configuration = c ∧ e.range = c.settings.range := by
  induction h with
  | made => exact ⟨rfl, rfl⟩
  | @calculated e _ stamp r ih =>
    rcases calculate_snd e stamp r with he | ⟨p, ms, subject, hA⟩
    · rw [he]
      exact ih
    · rw [hA.after]
      exact ih

/-- No rule is ever missing. -/
theorem registered (h : Arises c e) (rule : Rule) : (e.registry.get? rule).isSome = true := by
  induction h with
  | made => cases rule <;> rfl
  | @calculated e _ stamp r ih =>
    rcases calculate_snd e stamp r with he | ⟨p, ms, subject, hA⟩
    · rw [he]
      exact ih
    · rw [hA.after]
      exact Registry.isSome_get?_foldl_insert ih

/-- A property of fresh methods that all operations keep is one of every method. -/
theorem method {P : Method → Prop} (hP : Method.Kept P)
    (hfresh : ∀ seed rule, P (Method.ofRule seed rule)) (h : Arises c e) {rule : Rule} {m : Method}
    (hm : e.registry.get? rule = some m) : P m := by
  induction h generalizing rule m with
  | made entropy =>
    cases rule with
    | fixed r => cases hm; exact hfresh entropy (.fixed r)
    | monteCarlo => cases hm; exact hfresh _ .monteCarlo
  | @calculated e _ stamp r ih =>
    rcases calculate_snd e stamp r with he | ⟨p, ms, subject, hA⟩
    · rw [he] at hm
      exact ih hm
    · rw [hA.after] at hm
      rcases Registry.mem_of_get?_foldl_insert hm with hmem | hreg
      · have hruns : ∀ m ∈ ms.map fun m => (runFor r subject m).method, P m := by
          intro m hm
          obtain ⟨m', hm', rfl⟩ := List.mem_map.1 hm
          exact (kept_runOf hP (ih (hA.registered m' hm'))).2
        unfold sweepFor at hmem
        split at hmem
        · exact hP.sweep hruns m hmem
        · exact hruns m hmem
      · exact ih hreg

/-- A property of fresh samplers that all calls keep is one of the sampler. -/
theorem sampler {P : Sampler → Prop} (hcall : ∀ s c, P s → P (s.call c).2)
    (hfresh : ∀ seed, P (.ofSeed seed)) (h : Arises c e) {s : Sampler}
    (hs : e.registry.sampler = some s) : P s := by
  have hget : e.registry.get? .monteCarlo = some (.monteCarlo s) := by rw [Registry.get?, hs]; rfl
  exact h.method (Method.kept_ofSampler hcall) (Method.ofSampler_ofRule hfresh) hget

end Arises

end Engine

end Quadrature
