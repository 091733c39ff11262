import Mathlib
import Quadrature.Rule.Error

/-!
# What a rule refuses

When the parameters of a rule are admitted, when a result counts, and what comes of
evaluating an integrand at some abscissae: the values in their order, or the failure of
an abscissa that has none.
-/

namespace Quadrature

section Admission

variable {α : Type} [Scalar α] {a b v w : α} {n : Nat} {rule : Rule}

theorem checkBounds_eq_ok : checkBounds a b = .ok () ↔
    Scalar.isFinite a = true ∧ Scalar.isFinite b = true ∧ a < b ∧
      Scalar.isFinite (b - a) = true := by
  unfold checkBounds
  split
  · next h => simpa [and_assoc] using h
  · next h => simpa [and_assoc] using h

theorem Rule.check_of_bounds (h : checkBounds a b = .ok ()) : rule.check a b n =
    if n = 0 then .error .zeroPanels
    else if n < rule.minPanels then .error (.tooFewPanels rule n rule.minPanels)
    else .ok () := by
  unfold Rule.check
  rw [h]
  split
  · rfl
  · split <;> rfl

theorem Rule.check_eq_ok : rule.check a b n = .ok () ↔
    checkBounds a b = .ok () ∧ n ≠ 0 ∧ rule.minPanels ≤ n := by
  cases hb : checkBounds a b with
  | error e =>
    have h : rule.check a b n = .error e := by
      unfold Rule.check
      rw [hb]
      rfl
    simp [h]
  | ok _ =>
    rw [check_of_bounds hb]
    split
    · next hn => simp [hn]
    · next hn =>
      split
      · next hmin => simp [Nat.not_le.2 hmin]
      · next hmin => simp [hn, Nat.not_lt.1 hmin]

theorem Rule.finite_eq_ok : rule.finite v = .ok w ↔ w = v ∧ Scalar.isFinite v = true := by
  unfold Rule.finite
  split
  · next h => simp [h, eq_comm]
  · next h => simp [h]

theorem Rule.finite_eq_error {e : RuleError α} (h : rule.finite v = .error e) :
    e = .nonFinite rule := by
  unfold Rule.finite at h
  split at h <;> cases h
  rfl

end Admission

/-! ## Operations one after another -/

section Operations

variable {ε ε' β γ : Type}

theorem bind_eq_ok {x : Except ε β} {k : β → Except ε γ} {z : γ} :
    x.bind k = .ok z ↔ ∃ y, x = .ok y ∧ k y = .ok z := by
  cases x <;> simp [Except.bind]

theorem bind_eq_error {x : Except ε β} {k : β → Except ε γ} {e : ε} :
    x.bind k = .error e ↔ x = .error e ∨ ∃ y, x = .ok y ∧ k y = .error e := by
  cases x <;> simp [Except.bind]

theorem isOk_iff {x : Except ε β} : x.isOk = true ↔ ∃ y, x = .ok y := by
  cases x <;> simp [Except.isOk, Except.toBool]

theorem toOption_eq_some {x : Except ε β} {y : β} : x.toOption = some y ↔ x = .ok y := by
  cases x <;> simp [Except.toOption]

theorem mapError_eq_ok {g : ε → ε'} {x : Except ε β} {y : β} :
    x.mapError g = .ok y ↔ x = .ok y := by
  cases x <;> simp [Except.mapError]

theorem forM_eq_ok {xs : List β} {check : β → Except ε Unit} :
    xs.forM check = .ok () ↔ ∀ x ∈ xs, check x = .ok () := by
  induction xs with
  | nil => simp [List.forM, pure, Except.pure]
  | cons x xs ih =>
    rw [List.forM, List.forall_mem_cons, ← ih]
    cases hx : check x <;> simp [bind, Except.bind]

variable {f : β → Except ε γ} {xs : List β}

theorem mapM_eq_ok {ys : List γ} :
    xs.mapM f = .ok ys ↔ List.Forall₂ (fun x y => f x = .ok y) xs ys := by
  induction xs generalizing ys with
  | nil => cases ys <;> simp [pure, Except.pure]
  | cons x xs ih =>
    rw [List.mapM_cons]
    cases hx : f x with
    | error e => cases ys <;> simp [bind, Except.bind, hx]
    | ok y =>
      cases hs : xs.mapM f with
      | error e => cases ys <;> simp [bind, Except.bind, ← ih, hs, hx]
      | ok zs => cases ys <;> simp [bind, Except.bind, pure, Except.pure, ← ih, hs, hx]

theorem mapM_eq_error {e : ε} (h : xs.mapM f = .error e) : ∃ x ∈ xs, f x = .error e := by
  induction xs with
  | nil => cases h
  | cons x xs ih =>
    rw [List.mapM_cons] at h
    cases hx : f x with
    | error e' =>
      rw [hx] at h
      cases h
      exact ⟨x, List.mem_cons_self, hx⟩
    | ok y =>
      cases hs : xs.mapM f with
      | ok ys => rw [hx, hs] at h; cases h
      | error e' =>
        rw [hx, hs] at h
        cases h
        obtain ⟨x', hmem, hx'⟩ := ih hs
        exact ⟨x', List.mem_cons_of_mem x hmem, hx'⟩

end Operations

/-! ## Values at abscissae -/

section Values

variable {α : Type} {f : Integrand α} {x : α} {xs ys zs : List α}

theorem sample_append : sample f (xs ++ zs) =
    (sample f xs).bind fun ys => (sample f zs).map (ys ++ ·) := by
  simp only [sample, List.mapM_append]
  rfl

theorem sample_cons : sample f (x :: xs) =
    ((f x).mapError (.evaluation x)).bind fun y => (sample f xs).map (y :: ·) := by
  simp only [sample, List.mapM_cons]
  rfl

theorem sample_eq_ok : sample f xs = .ok ys ↔ List.Forall₂ (fun x y => f x = .ok y) xs ys := by
  have hvalue (x y : α) : (f x).mapError (RuleError.evaluation x) = .ok y ↔ f x = .ok y := by
    cases f x <;> simp [Except.mapError]
  simp only [sample, mapM_eq_ok, hvalue]

theorem sample_congr {f' : Integrand α} (h : ∀ x ∈ xs, f x = f' x) :
    sample f xs = sample f' xs := by
  induction xs with
  | nil => rfl
  | cons x xs ih =>
    obtain ⟨hx, hxs⟩ := List.forall_mem_cons.1 h
    rw [sample_cons, sample_cons, hx, ih hxs]

theorem sample_range {x y : ℕ → α} {k : ℕ} (h : ∀ i < k, f (x i) = .ok (y i)) :
    sample f ((List.range k).map x) = .ok ((List.range k).map y) := by
  rw [sample_eq_ok, List.forall₂_map_left_iff, List.forall₂_map_right_iff, List.forall₂_same]
  exact fun i hi => h i (List.mem_range.1 hi)

theorem sample_eq_error {e : RuleError α} (h : sample f xs = .error e) :
    ∃ x ∈ xs, ∃ cause, f x = .error cause ∧ e = .evaluation x cause := by
  obtain ⟨x, hx, he⟩ := mapM_eq_error h
  refine ⟨x, hx, ?_⟩
  cases hf : f x with
  | ok y => rw [hf] at he; cases he
  | error cause =>
    rw [hf] at he
    cases he
    exact ⟨cause, rfl, rfl⟩

end Values

end Quadrature
