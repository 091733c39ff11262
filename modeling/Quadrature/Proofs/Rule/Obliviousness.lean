import Quadrature.Proofs.Rule.History

/-!
# Positions do not depend on values

Two runs of calls that differ in their integrands only. As long as the integrands of a step
fail in both runs or in neither, the samplers stay alike: they have one generator, and their
last draws are for one interval and at the same positions. What the integrands give where
they do not fail, and whether a result is finite, makes no difference.
-/

namespace Quadrature

/-- What there is to a draw besides the values at its positions. -/
def Draw.outline (d : Draw) : (Float × Float) × List Float :=
  ((d.a, d.b), d.points.map Point.x)

theorem Draw.isFor_congr {d d' : Draw} (h : d.outline = d'.outline) (a b : Float) (n : Nat) :
    d.isFor a b n = d'.isFor a b n := by
  simp only [Draw.outline, Prod.mk.injEq] at h
  obtain ⟨⟨ha, hb⟩, hxs⟩ := h
  have hlen : d.points.length = d'.points.length := by simpa using congrArg List.length hxs
  rw [Draw.isFor, Draw.isFor, ha, hb, hlen]

namespace Sampler

/-- Calls that differ in their integrands only. -/
structure Call.Same (c c' : Call) : Prop where
  operation : c.operation = c'.operation
  left : c.a = c'.a
  right : c.b = c'.b
  number : c.n = c'.n

/-- Whether the integrand fails at one of the positions of a call. -/
def Call.fails (c : Call) (s : Sampler) : Bool :=
  match (s.call c).1 with
  | .error (.evaluation _ _) => true
  | _ => false

/-- Samplers that differ in the values of their last draws only. -/
structure Alike (s s' : Sampler) : Prop where
  generator : s.generator = s'.generator
  last : s.last.map Draw.outline = s'.last.map Draw.outline

variable {s s' : Sampler} {c c' : Call} {cs cs' : List Call} {xs xs' : List Float}
  {g g' : ChaCha} {i : Nat}

theorem Call.fails_iff :
    c.fails s = true ↔ ∃ x cause, (s.call c).1 = .error (.evaluation x cause) := by
  unfold Call.fails
  split
  · next x cause h => exact ⟨fun _ => ⟨x, cause, h⟩, fun _ => rfl⟩
  · next hne => exact ⟨fun h => (Bool.false_ne_true h).elim, fun ⟨x, cause, h⟩ => (hne x cause h).elim⟩

theorem Call.stores_iff :
    c.Stores s ↔ c.Admitted ∧ c.NeedsPoints ∧ c.fails s = false := by
  have hfails : c.fails s = false ↔ ∀ x cause, (s.call c).1 ≠ .error (.evaluation x cause) := by
    rw [← Bool.not_eq_true, Call.fails_iff]
    simp only [not_exists, ne_eq]
  rw [Call.Stores, hfails]

namespace Call.Same

theorem admitted_iff (h : c.Same c') : c.Admitted ↔ c'.Admitted := by
  rw [Call.Admitted, Call.Admitted, h.left, h.right, h.number]

theorem needsPoints_iff (h : c.Same c') : c.NeedsPoints ↔ c'.NeedsPoints := by
  rw [Call.NeedsPoints, Call.NeedsPoints, h.operation, h.number]

end Call.Same

theorem Call.same_of_getElem? (h : List.Forall₂ Call.Same cs cs') (hc : cs[i]? = some c)
    (hc' : cs'[i]? = some c') : c.Same c' := by
  induction h generalizing i with
  | nil => cases hc
  | cons hsame _ ih =>
    cases i with
    | zero => cases hc; cases hc'; exact hsame
    | succ i => exact ih hc hc'

namespace Alike

theorem exists_last (h : Alike s s') {d : Draw} (hd : s.last = some d) :
    ∃ d', s'.last = some d' ∧ d'.outline = d.outline := by
  have hlast := h.last
  rw [hd] at hlast
  exact Option.map_eq_some_iff.1 hlast.symm

theorem symm (h : Alike s s') : Alike s' s :=
  ⟨h.generator.symm, h.last.symm⟩

theorem matches_of_matches (h : Alike s s') (hc : c.Same c') (hm : c.Matches s) :
    c'.Matches s' := by
  obtain ⟨d, hd, hfor⟩ := hm
  obtain ⟨d', hd', houtline⟩ := h.exists_last hd
  refine ⟨d', hd', ?_⟩
  rw [Draw.isFor_congr houtline, ← hc.left, ← hc.right, ← hc.number]
  exact hfor

theorem matches_iff (h : Alike s s') (hc : c.Same c') : c.Matches s ↔ c'.Matches s' :=
  ⟨h.matches_of_matches hc,
    h.symm.matches_of_matches ⟨hc.operation.symm, hc.left.symm, hc.right.symm, hc.number.symm⟩⟩

theorem draws_iff (h : Alike s s') (hc : c.Same c') : c.Draws s ↔ c'.Draws s' := by
  rw [Call.Draws, Call.Draws, hc.admitted_iff, hc.needsPoints_iff, hc.operation,
    h.matches_iff hc]

/-- The same call is made at the same positions, and leaves the same generator. -/
theorem positions_eq (h : Alike s s') (hc : c.Same c') (hp : Positions s c xs g)
    (hp' : Positions s' c' xs' g') : xs = xs' ∧ g = g' := by
  cases hp with
  | drawn hd =>
    cases hp' with
    | drawn => rw [h.generator, hc.left, hc.right, hc.number]; exact ⟨rfl, rfl⟩
    | kept hn => exact absurd ((h.draws_iff hc).1 hd) hn
  | kept hn hlast =>
    cases hp' with
    | drawn hd => exact absurd ((h.draws_iff hc).2 hd) hn
    | kept _ hlast' =>
      obtain ⟨d', hd', houtline⟩ := h.exists_last hlast
      obtain rfl := Option.some.inj (hlast'.symm.trans hd')
      exact ⟨congrArg Prod.snd houtline.symm, h.generator⟩

theorem stores_iff (h : c.Same c') (hfails : c.fails s = c'.fails s') :
    c.Stores s ↔ c'.Stores s' := by
  rw [Call.stores_iff, Call.stores_iff, h.admitted_iff, h.needsPoints_iff, hfails]

/-- One step: hit, miss, refusal and a result that is not finite all keep samplers alike;
only a failure in one of the runs could tell them apart. -/
theorem call (h : Alike s s') (hc : c.Same c') (hfails : c.fails s = c'.fails s') :
    Alike (s.call c).2 (s'.call c').2 := by
  constructor
  · by_cases hd : c.Draws s
    · rw [(generator_call s c).1 hd, (generator_call s' c').1 ((h.draws_iff hc).1 hd),
        h.generator, hc.left, hc.right, hc.number]
    · rw [(generator_call s c).2 hd, (generator_call s' c').2 (mt (h.draws_iff hc).2 hd),
        h.generator]
  · by_cases hstores : c.Stores s
    · obtain ⟨ps, g, hp, -, hcall⟩ := call_stores hstores
      obtain ⟨ps', g', hp', -, hcall'⟩ := call_stores ((stores_iff hc hfails).1 hstores)
      have hxs : ps.map Point.x = ps'.map Point.x := (h.positions_eq hc hp hp').1
      rw [hcall, hcall']
      simp only [Option.map_some, Draw.outline, hc.left, hc.right, hxs]
    · rw [last_of_not_stores hstores, last_of_not_stores (mt (stores_iff hc hfails).2 hstores),
        h.last]

end Alike

/-! ## Runs -/

theorem before_of_length_le (s : Sampler) (h : cs.length ≤ i) : s.before cs i = s.run cs := by
  rw [before, List.take_of_length_le h]

/-- Samplers that start alike are alike after as many steps as agree on failures. -/
theorem Alike.before (h : Alike s s') (hcs : List.Forall₂ Call.Same cs cs')
    (hfails : ∀ j c c', j < i → cs[j]? = some c → cs'[j]? = some c' →
      c.fails (s.before cs j) = c'.fails (s'.before cs' j)) :
    Alike (s.before cs i) (s'.before cs' i) := by
  have hlen : cs.length = cs'.length := hcs.length_eq
  induction i with
  | zero => exact h
  | succ i ih =>
    have hi : Alike (s.before cs i) (s'.before cs' i) :=
      ih fun j c c' hj => hfails j c c' (Nat.lt_succ_of_lt hj)
    cases hc : cs[i]? with
    | some c =>
      have hlt : i < cs'.length := hlen ▸ (List.getElem?_eq_some_iff.1 hc).1
      have hc' : cs'[i]? = some cs'[i] := List.getElem?_eq_getElem hlt
      rw [before_succ hc, before_succ hc']
      exact hi.call (Call.same_of_getElem? hcs hc hc') (hfails i _ _ (Nat.lt_succ_self i) hc hc')
    | none =>
      have hle : cs.length ≤ i := List.getElem?_eq_none_iff.1 hc
      rw [before_of_length_le s (by omega), before_of_length_le s' (by omega)]
      rwa [before_of_length_le s (by omega), before_of_length_le s' (by omega)] at hi

/-- Two runs from one seed, with the same calls but for their integrands, which agree at
every step on whether the integrand fails: after every number of steps the generators, the
intervals of the last draws and their positions are the same, and so are the positions at
which the next calls evaluate their integrands. -/
theorem positions_oblivious (seed : UInt64) (cs cs' : List Call)
    (hcs : List.Forall₂ Call.Same cs cs')
    (hfails : ∀ (i : Nat) (c c' : Call), cs[i]? = some c → cs'[i]? = some c' →
      c.fails ((ofSeed seed).before cs i) = c'.fails ((ofSeed seed).before cs' i)) (i : Nat) :
    let s := (ofSeed seed).before cs i
    let s' := (ofSeed seed).before cs' i
    s.generator = s'.generator ∧
      (s.last.map fun d => (d.a, d.b)) = (s'.last.map fun d => (d.a, d.b)) ∧
      s.lastPoints.map Point.x = s'.lastPoints.map Point.x ∧
      ∀ c c' xs xs' g g', cs[i]? = some c → cs'[i]? = some c' → Positions s c xs g →
        Positions s' c' xs' g' → xs = xs' ∧ g = g' := by
  intro s s'
  have h : Alike s s' :=
    Alike.before ⟨rfl, rfl⟩ hcs fun j c c' _ => hfails j c c'
  have hpoints (s : Sampler) :
      s.lastPoints.map Point.x = (s.last.map Draw.outline).elim [] Prod.snd := by
    rw [lastPoints]
    cases s.last <;> rfl
  have hinterval (s : Sampler) :
      (s.last.map fun d => (d.a, d.b)) = (s.last.map Draw.outline).map Prod.fst := by
    cases s.last <;> rfl
  refine ⟨h.generator, ?_, ?_, ?_⟩
  · rw [hinterval, hinterval, h.last]
  · rw [hpoints, hpoints, h.last]
  · intro c c' xs xs' g g' hc hc' hp hp'
    exact h.positions_eq (Call.same_of_getElem? hcs hc hc') hp hp'

/-- An integral that overflows and one that does not, then an integrand that fails in both
runs, then samples: the runs end with the same positions. -/
theorem positions_oblivious_overflow :
    let fail : Integrand Float := fun x => .error (.domain "f" x)
    let cs : List Call := [⟨.integrate, fun _ => .ok 1e308, 0.0, 4.0, 2⟩,
      ⟨.errorBound, fail, 0.0, 4.0, 3⟩, ⟨.samples, fun x => .ok x, 0.0, 4.0, 2⟩]
    let cs' : List Call := [⟨.integrate, fun x => .ok x, 0.0, 4.0, 2⟩,
      ⟨.errorBound, fail, 0.0, 4.0, 3⟩, ⟨.samples, fun _ => .ok 1.0, 0.0, 4.0, 2⟩]
    ((ofSeed 7).run cs).lastPoints.map Point.x = ((ofSeed 7).run cs').lastPoints.map Point.x := by
  intro fail cs cs'
  have hsame : List.Forall₂ Call.Same cs cs' :=
    .cons ⟨rfl, rfl, rfl, rfl⟩ (.cons ⟨rfl, rfl, rfl, rfl⟩ (.cons ⟨rfl, rfl, rfl, rfl⟩ .nil))
  have hfails : ∀ (i : Nat) (c c' : Call), cs[i]? = some c → cs'[i]? = some c' →
      c.fails ((ofSeed 7).before cs i) = c'.fails ((ofSeed 7).before cs' i) := by
    intro i c c' hc hc'
    match i with
    | 0 => cases hc; cases hc'; decide +kernel
    | 1 => cases hc; cases hc'; decide +kernel
    | 2 => cases hc; cases hc'; decide +kernel
    | i + 3 => cases hc
  obtain ⟨-, -, hpoints, -⟩ := positions_oblivious 7 cs cs' hsame hfails 3
  exact hpoints

end Sampler

end Quadrature
