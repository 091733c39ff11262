import Quadrature.Proofs.Engine.Answer

/-!
# Histories of an engine

A request that is refused and one that is not for Monte Carlo leave the engine as it was, so
what an engine answers to the requests of a sequence is the same without them
(`answers_omitted`).
-/

namespace Quadrature

/-- The report with another stamp. -/
def Report.restamped (p : Report) (stamp : Stamp) : Report :=
  { p with stamp }

namespace Engine

section Calculations

variable [Elementary Float] {e : Engine} {stamp : Stamp} {r : Request}

/-! ## One request -/

theorem calculate_restamped (e : Engine) (stamp stamp' : Stamp) (r : Request) :
    e.calculate stamp' r =
      ((e.calculate stamp r).1.map (·.restamped stamp'), (e.calculate stamp r).2) := by
  unfold calculate
  cases e.prepare r <;> rfl

theorem calculate_of_error {cause : EngineError} (h : (e.calculate stamp r).1 = .error cause) :
    (e.calculate stamp r).2 = e := by
  unfold calculate at h ⊢
  cases hprepare : e.prepare r with
  | error cause' => rfl
  | ok prepared => rw [hprepare] at h; cases h

/-- Without Monte Carlo the methods that are put back are those that were there. -/
theorem calculate_of_not_mem (h : .monteCarlo ∉ r.rules) : (e.calculate stamp r).2 = e := by
  rcases hcalc : e.calculate stamp r with ⟨cause | p, e'⟩
  · have he := calculate_of_error (congrArg Prod.fst hcalc)
    rwa [hcalc] at he
  · obtain ⟨ms, subject, hA⟩ := calculate_eq_ok hcalc
    have hms : ∀ m ∈ ms, m.rule ≠ .monteCarlo := by
      intro m hm hrule
      apply h
      rw [← hA.rules, ← hrule]
      exact List.mem_map_of_mem hm
    have hruns : ms.map (fun m => (runFor r subject m).method) = ms :=
      (List.map_congr_left fun m hm => (runOf_fixed (hms m hm)).2).trans (List.map_id ms)
    have hsweep : (e.sweepFor r subject ms).2 = ms := by
      unfold sweepFor
      split
      · exact sweep_unchanged hms
      · rfl
    show e' = e
    rw [hA.after, hruns, hsweep, Registry.foldl_insert_eq_self hA.registered]

theorem calculate_unchanged
    (h : (∃ cause, (e.calculate stamp r).1 = .error cause) ∨ .monteCarlo ∉ r.rules) :
    (e.calculate stamp r).2 = e :=
  h.elim (fun ⟨_, hcause⟩ => calculate_of_error hcause) calculate_of_not_mem

/-! ## Sequences of requests -/

/-- What the requests of a sequence are answered. -/
def answers (e : Engine) : List (Stamp × Request) → List (Except EngineError Report)
  | [] => []
  | (stamp, r) :: rest => (e.calculate stamp r).1 :: answers (e.calculate stamp r).2 rest

end Calculations

/-- A request of a sequence that is answered twice, all of it and without the requests that
are omitted. -/
structure Turn where
  request : Request
  /-- The stamp of its report when no request is omitted. -/
  stamp : Stamp
  /-- The stamp of its report when some are. -/
  restamp : Stamp
  omitted : Bool

/-- The answers to all requests of a sequence, each with its turn. -/
def answered [Elementary Float] (e : Engine) (ts : List Turn) :
    List (Turn × Except EngineError Report) :=
  ts.zip (e.answers (ts.map fun t => (t.stamp, t.request)))

/-- If requests are omitted from a sequence that are refused or are not for Monte Carlo, the
others are answered as they were, with other stamps. A request that is refused leaves the
engine as it was, with the generator and the last draw. -/
theorem answers_omitted [Elementary Float] (e : Engine) (ts : List Turn)
    (h : ∀ x ∈ e.answered ts, x.1.omitted = true →
      (∃ cause, x.2 = .error cause) ∨ .monteCarlo ∉ x.1.request.rules) :
    e.answers ((ts.filter (!·.omitted)).map fun t => (t.restamp, t.request)) =
        ((e.answered ts).filter (!·.1.omitted)).map (fun x => x.2.map (·.restamped x.1.restamp)) ∧
      ∀ (e : Engine) (stamp : Stamp) (r : Request) (cause : EngineError),
        (e.calculate stamp r).1 = .error cause → (e.calculate stamp r).2 = e := by
  refine ⟨?_, fun _ _ _ _ => calculate_of_error⟩
  induction ts generalizing e with
  | nil => rfl
  | cons t ts ih =>
    have hcons : e.answered (t :: ts) = (t, (e.calculate t.stamp t.request).1) ::
        (e.calculate t.stamp t.request).2.answered ts := rfl
    rw [hcons] at h ⊢
    obtain ⟨ht, hts⟩ := List.forall_mem_cons.1 h
    have hrest := ih _ hts
    cases homit : t.omitted with
    | true =>
      rw [calculate_unchanged (ht homit)] at hrest ⊢
      rw [List.filter_cons_of_neg (by simp [homit]), List.filter_cons_of_neg (by simp [homit])]
      exact hrest
    | false =>
      rw [List.filter_cons_of_pos (by simp [homit]), List.filter_cons_of_pos (by simp [homit]),
        List.map_cons, List.map_cons, answers,
        calculate_restamped e t.stamp t.restamp t.request, hrest]

/-- Between two Monte Carlo requests, one for no points and one for another rule. -/
theorem answers_omitted_square :
    let e := Engine.ofConfiguration .initial 7
    let request (n : Nat) (rule : Rule) :=
      Request.ofRules (.expression "x*x") 0.0 1.0 n [rule] true
    let ts : List Turn := [
      ⟨request 2 .monteCarlo, ⟨⟨0⟩, ⟨0, 0⟩⟩, ⟨⟨4⟩, ⟨9, 0⟩⟩, false⟩,
      ⟨request 0 .monteCarlo, ⟨⟨1⟩, ⟨1, 0⟩⟩, ⟨⟨1⟩, ⟨1, 0⟩⟩, true⟩,
      ⟨request 2 (.fixed .midpoint), ⟨⟨2⟩, ⟨2, 0⟩⟩, ⟨⟨2⟩, ⟨2, 0⟩⟩, true⟩,
      ⟨request 2 .monteCarlo, ⟨⟨3⟩, ⟨3, 0⟩⟩, ⟨⟨5⟩, ⟨9, 1⟩⟩, false⟩]
    e.answers [(⟨⟨4⟩, ⟨9, 0⟩⟩, request 2 .monteCarlo), (⟨⟨5⟩, ⟨9, 1⟩⟩, request 2 .monteCarlo)] =
      ((e.answered ts).filter (!·.1.omitted)).map fun x => x.2.map (·.restamped x.1.restamp) := by
  intro e request ts
  have hidle : (e.answered ts).all (fun x =>
      !x.1.omitted || !x.2.isOk || decide (.monteCarlo ∉ x.1.request.rules)) = true := by
    decide +kernel
  refine (answers_omitted e ts fun x hx homit => ?_).1
  have hx := List.all_eq_true.1 hidle x hx
  cases hanswer : x.2 with
  | error cause => exact .inl ⟨cause, rfl⟩
  | ok p =>
    rw [homit, hanswer] at hx
    exact .inr (of_decide_eq_true hx)

end Engine

end Quadrature
