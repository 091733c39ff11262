import Mathlib
import Quadrature.Rule.Method

/-!
# Methods and registries

An operation leaves a method its rule, and a method on fixed abscissae it leaves as it is.
A registry is determined by its look-ups (`Registry.ext_get?`), so putting a method back
unchanged changes nothing. Different rules may be run one after another on the registry
they share or each on the method it had at the beginning (`inTurn_eq`).
-/

namespace Quadrature

namespace Method

variable {f : Integrand Float} {a b : Float} {n : Nat} {m : Method}

@[simp] theorem rule_integrate : (m.integrate f a b n).2.rule = m.rule := by
  cases m <;> rfl

@[simp] theorem rule_errorBound : (m.errorBound f a b n).2.rule = m.rule := by
  cases m <;> rfl

@[simp] theorem rule_samples : (m.samples f a b n).2.rule = m.rule := by
  cases m <;> rfl

theorem exists_fixed (h : m.rule ≠ .monteCarlo) : ∃ r, m = fixed r := by
  cases m with
  | fixed r => exact ⟨r, rfl⟩
  | monteCarlo s => exact absurd rfl h

theorem integrate_unchanged (h : m.rule ≠ .monteCarlo) : (m.integrate f a b n).2 = m := by
  obtain ⟨r, rfl⟩ := exists_fixed h
  rfl

end Method

namespace Registry

variable {reg reg' : Registry} {m : Method} {ms : List Method} {rule : Rule}

theorem rule_of_get? (h : reg.get? rule = some m) : m.rule = rule := by
  cases rule with
  | fixed r =>
    simp only [get?] at h
    split at h
    · cases h; rfl
    · cases h
  | monteCarlo =>
    obtain ⟨s, -, rfl⟩ := Option.map_eq_some_iff.1 h
    rfl

theorem ext_get? (h : ∀ rule, reg.get? rule = reg'.get? rule) : reg = reg' := by
  obtain ⟨hasFixed, sampler⟩ := reg
  obtain ⟨hasFixed', sampler'⟩ := reg'
  have hfixed : hasFixed = hasFixed' := by
    funext r
    have hr := h (.fixed r)
    simp only [get?] at hr
    cases h1 : hasFixed r <;> cases h2 : hasFixed' r <;> simp [h1, h2] at hr ⊢
  have hsampler : sampler = sampler' := by
    have hr := h .monteCarlo
    simp only [get?] at hr
    exact Option.map_injective (fun _ _ => Method.monteCarlo.inj) hr
  rw [hfixed, hsampler]

theorem get?_insert :
    (reg.insert m).get? rule = if m.rule = rule then some m else reg.get? rule := by
  cases m with
  | fixed r =>
    cases rule with
    | fixed r' =>
      by_cases h : r' = r
      · subst h
        simp [insert, get?, Method.rule]
      · have hne : (Method.fixed r).rule ≠ .fixed r' := fun heq => h (Rule.fixed.inj heq).symm
        rw [if_neg hne]
        simp [insert, get?, h]
    | monteCarlo => rfl
  | monteCarlo s =>
    cases rule with
    | fixed r' => rfl
    | monteCarlo => rfl

theorem insert_eq_self (h : reg.get? m.rule = some m) : reg.insert m = reg := by
  apply ext_get?
  intro rule
  rw [get?_insert]
  split
  · next hr => rw [← hr, h]
  · rfl

theorem foldl_insert_eq_self (h : ∀ m ∈ ms, reg.get? m.rule = some m) :
    ms.foldl insert reg = reg := by
  induction ms with
  | nil => rfl
  | cons m ms ih =>
    rw [List.foldl_cons, insert_eq_self (h m List.mem_cons_self)]
    exact ih fun m' hm' => h m' (List.mem_cons_of_mem m hm')

theorem get?_foldl_insert_of_not_mem (h : rule ∉ ms.map Method.rule) :
    (ms.foldl insert reg).get? rule = reg.get? rule := by
  induction ms generalizing reg with
  | nil => rfl
  | cons m ms ih =>
    obtain ⟨hne, hrest⟩ := not_or.1 (mt List.mem_cons.2 h)
    rw [List.foldl_cons, ih hrest, get?_insert, if_neg (Ne.symm hne)]

/-- What is looked up among methods that were put in does not depend on what was there. -/
theorem get?_foldl_insert_of_mem (h : rule ∈ ms.map Method.rule) (reg reg' : Registry) :
    (ms.foldl insert reg).get? rule = (ms.foldl insert reg').get? rule := by
  induction ms generalizing reg reg' with
  | nil => cases h
  | cons m ms ih =>
    rw [List.foldl_cons, List.foldl_cons]
    by_cases hrest : rule ∈ ms.map Method.rule
    · exact ih hrest _ _
    · obtain rfl : rule = m.rule := (List.mem_cons.1 h).resolve_right hrest
      simp only [get?_foldl_insert_of_not_mem hrest, get?_insert, if_pos]

theorem get?_foldl_insert (hm : m ∈ ms) (hnd : (ms.map Method.rule).Nodup) :
    (ms.foldl insert reg).get? m.rule = some m := by
  induction ms generalizing reg with
  | nil => cases hm
  | cons m' ms ih =>
    obtain ⟨hnot, hnd⟩ := List.nodup_cons.1 hnd
    rw [List.foldl_cons]
    cases hm with
    | head => rw [get?_foldl_insert_of_not_mem hnot, get?_insert, if_pos rfl]
    | tail _ hm => exact ih hm hnd

/-- Methods take the places of others for the same rules. -/
theorem foldl_insert_foldl_insert {ms' : List Method} (h : ms'.map Method.rule = ms.map Method.rule) :
    ms'.foldl insert (ms.foldl insert reg) = ms'.foldl insert reg := by
  apply ext_get?
  intro rule
  by_cases hrule : rule ∈ ms'.map Method.rule
  · exact get?_foldl_insert_of_mem hrule _ _
  · rw [get?_foldl_insert_of_not_mem hrule, get?_foldl_insert_of_not_mem hrule,
      get?_foldl_insert_of_not_mem (h ▸ hrule)]

/-- An operation of some rules one after another, each with the method that the registry
holds when its turn comes. -/
def inTurn {β : Type} (op : Method → β × Method) : Registry → List Rule → List β × Registry
  | reg, [] => ([], reg)
  | reg, rule :: rules =>
    match reg.get? rule with
    | none => inTurn op reg rules
    | some m =>
      let (found, reg) := inTurn op (reg.insert (op m).2) rules
      ((op m).1 :: found, reg)

theorem inTurn_eq {β : Type} (op : Method → β × Method) (hop : ∀ m, (op m).2.rule = m.rule)
    (hms : ∀ m ∈ ms, reg.get? m.rule = some m) (hnd : (ms.map Method.rule).Nodup) :
    reg.inTurn op (ms.map Method.rule) =
      (ms.map fun m => (op m).1, (ms.map fun m => (op m).2).foldl insert reg) := by
  induction ms generalizing reg with
  | nil => rfl
  | cons m ms ih =>
    obtain ⟨hnot, hnd⟩ := List.nodup_cons.1 hnd
    -- the method put back belongs to none of the rules that are still to come
    have hrest : ∀ m' ∈ ms, (reg.insert (op m).2).get? m'.rule = some m' := by
      intro m' hm'
      have hne : m.rule ≠ m'.rule := fun heq => hnot (heq ▸ List.mem_map_of_mem hm')
      rw [get?_insert, hop, if_neg hne]
      exact hms m' (List.mem_cons_of_mem m hm')
    rw [List.map_cons, inTurn, hms m List.mem_cons_self]
    dsimp only
    rw [ih hrest hnd]
    rfl

end Registry

end Quadrature
