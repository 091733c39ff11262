import Quadrature.Proofs.Rule.Sampler

/-!
# Histories of a sampler

What holds of a sampler after any calls, whatever their integrands do. The last draw has
the positions of one call that drew and the values of the last call that stored
(`Origin`); the pieces of the stream that calls read do not overlap; and half-widths and
samples that match the last draw leave the generator and the positions alone.
-/

namespace Quadrature

namespace Sampler

/-- The sampler after some calls. -/
def run (s : Sampler) (cs : List Call) : Sampler :=
  cs.foldl (fun s c => (s.call c).2) s

/-- The sampler that call `i` finds. -/
def before (s : Sampler) (cs : List Call) (i : Nat) : Sampler :=
  s.run (cs.take i)

variable {s : Sampler} {cs : List Call} {c : Call} {d : Draw} {i j k : Nat}

theorem run_append (s : Sampler) (cs cs' : List Call) : s.run (cs ++ cs') = (s.run cs).run cs' :=
  List.foldl_append

theorem before_length (s : Sampler) (cs : List Call) : s.before cs cs.length = s.run cs := by
  rw [before, List.take_length]

theorem before_append (cs' : List Call) (hi : i ≤ cs.length) :
    s.before (cs ++ cs') i = s.before cs i := by
  rw [before, before, List.take_append_of_le_length hi]

theorem before_succ (h : cs[i]? = some c) :
    s.before cs (i + 1) = ((s.before cs i).call c).2 := by
  rw [before, before, List.take_add_one, h, run_append]
  rfl

/-! ## Where the last draw comes from -/

/-- The last draw after the calls: call `j` drew the positions, for an interval equal to that
of the draw, and call `k`, which is the last that stored, evaluated its integrand at them. -/
structure Origin (s : Sampler) (cs : List Call) (d : Draw) (j k : Nat) (drawer keeper : Call) :
    Prop where
  drawer_at : cs[j]? = some drawer
  keeper_at : cs[k]? = some keeper
  le : j ≤ k
  draws : drawer.Draws (s.before cs j)
  drawer_stores : drawer.Stores (s.before cs j)
  keeper_stores : keeper.Stores (s.before cs k)
  last : ∀ i c, k < i → cs[i]? = some c → ¬ c.Stores (s.before cs i)
  left : (drawer.a == d.a) = true
  right : (drawer.b == d.b) = true
  number : drawer.n = d.points.length
  positions : d.points.map Point.x =
    ((s.before cs j).generator.uniforms drawer.a drawer.b drawer.n).1
  interval : keeper.a = d.a ∧ keeper.b = d.b
  values : ∀ p ∈ d.points, keeper.f p.x = .ok p.y

namespace Origin

variable {drawer keeper : Call}

theorem lt_length (h : Origin s cs d j k drawer keeper) : k < cs.length :=
  (List.getElem?_eq_some_iff.1 h.keeper_at).1

/-- A call that stores nothing leaves the origin of the last draw. -/
theorem snoc (h : Origin s cs d j k drawer keeper) (hc : ¬ c.Stores (s.run cs)) :
    Origin s (cs ++ [c]) d j k drawer keeper := by
  have hk := h.lt_length
  have hj := h.le
  refine ⟨?_, ?_, hj, ?_, ?_, ?_, ?_, h.left, h.right, h.number, ?_, h.interval, h.values⟩
  · rw [List.getElem?_append_left (by omega), h.drawer_at]
  · rw [List.getElem?_append_left hk, h.keeper_at]
  · rw [before_append _ (by omega)]; exact h.draws
  · rw [before_append _ (by omega)]; exact h.drawer_stores
  · rw [before_append _ (by omega)]; exact h.keeper_stores
  · intro i c' hi hat
    by_cases hlt : i < cs.length
    · rw [List.getElem?_append_left hlt] at hat
      rw [before_append _ (by omega)]
      exact h.last i c' hi hat
    · obtain ⟨hle, hat⟩ := List.getElem?_eq_some_iff.1 hat
      obtain rfl : i = cs.length := by simp at hle; omega
      obtain rfl : c = c' := by simpa using hat
      rw [before_append _ (by omega), before_length]
      exact hc
  · rw [before_append _ (by omega)]; exact h.positions

/-- A call that evaluates anew at the positions of the last draw keeps their origin. -/
theorem evaluated (h : Origin s cs d j k drawer keeper) (hc : c.Stores (s.run cs))
    (hfor : d.isFor c.a c.b c.n = true) {ps : List Point}
    (hps : ps.map Point.x = d.points.map Point.x) (hf : ∀ p ∈ ps, c.f p.x = .ok p.y) :
    Origin s (cs ++ [c]) ⟨c.a, c.b, ps⟩ j cs.length drawer c := by
  have hk := h.lt_length
  have hj := h.le
  obtain ⟨ha, hb, -, -⟩ := hc.1.bounds
  obtain ⟨hda, hdb, -⟩ := Draw.isFor_iff.1 hfor
  have hlen : ps.length = d.points.length := by simpa using congrArg List.length hps
  refine ⟨?_, ?_, by omega, ?_, ?_, ?_, ?_, beq_trans h.left hda ha, beq_trans h.right hdb hb,
    h.number.trans hlen.symm, ?_, ⟨rfl, rfl⟩, hf⟩
  · rw [List.getElem?_append_left (by omega), h.drawer_at]
  · simp
  · rw [before_append _ (by omega)]; exact h.draws
  · rw [before_append _ (by omega)]; exact h.drawer_stores
  · rw [before_append _ (Nat.le_refl _), before_length]; exact hc
  · intro i c' hi hat
    have := (List.getElem?_eq_some_iff.1 hat).1
    simp at this
    omega
  · rw [before_append _ (by omega), ← h.positions]; exact hps

/-- A call that draws and stores is the origin of its own draw. -/
theorem drawn (hd : c.Draws (s.run cs)) (hc : c.Stores (s.run cs)) {ps : List Point}
    (hps : ps.map Point.x = ((s.run cs).generator.uniforms c.a c.b c.n).1)
    (hf : ∀ p ∈ ps, c.f p.x = .ok p.y) :
    Origin s (cs ++ [c]) ⟨c.a, c.b, ps⟩ cs.length cs.length c c := by
  obtain ⟨ha, hb, -, -⟩ := hc.1.bounds
  have hat : (cs ++ [c])[cs.length]? = some c := by simp
  have hbefore : s.before (cs ++ [c]) cs.length = s.run cs := by
    rw [before_append _ (Nat.le_refl _), before_length]
  refine ⟨hat, hat, Nat.le_refl _, ?_, ?_, ?_, ?_, beq_self ha, beq_self hb,
    (length_of_drawn hps).symm, ?_, ⟨rfl, rfl⟩, hf⟩
  · rw [hbefore]; exact hd
  · rw [hbefore]; exact hc
  · rw [hbefore]; exact hc
  · intro i c' hi hat'
    have := (List.getElem?_eq_some_iff.1 hat').1
    simp at this
    omega
  · rw [hbefore]; exact hps

end Origin

theorem exists_origin (hs : s.last = none) (cs : List Call) :
    ∀ d, (s.run cs).last = some d →
      ∃ j k drawer keeper, Origin s cs d j k drawer keeper := by
  induction cs using List.reverseRecOn with
  | nil =>
    intro d hd
    have hd : s.last = some d := hd
    rw [hs] at hd
    cases hd
  | append_singleton cs c ih =>
    intro d hd
    have hd : ((s.run cs).call c).2.last = some d := by rwa [run_append] at hd
    by_cases hc : c.Stores (s.run cs)
    · obtain ⟨ps, g, hp, hf, hcall⟩ := call_stores hc
      rw [hcall] at hd
      cases hd
      generalize hxs : ps.map Point.x = xs at hp
      cases hp with
      | drawn hdraws => exact ⟨_, _, _, _, .drawn hdraws hc hxs hf⟩
      | kept _ hlast hfor =>
        obtain ⟨j, k, drawer, keeper, h⟩ := ih _ hlast
        exact ⟨_, _, _, _, h.evaluated hc hfor hxs hf⟩
    · rw [last_of_not_stores hc] at hd
      obtain ⟨j, k, drawer, keeper, h⟩ := ih d hd
      exact ⟨j, k, drawer, keeper, h.snoc hc⟩

/-! ## Pieces of the stream -/

/-- The places of the words that a call reads. -/
def Call.piece (c : Call) (s : Sampler) : Finset Nat :=
  Finset.Ico s.generator.drawn (s.call c).2.generator.drawn

/-- A call that draws takes the next words, at least one for each of its positions, and what
it draws depends on these words alone. -/
theorem draws_piece (h : c.Draws s) :
    c.n ≤ (c.piece s).card ∧ (s.call c).2.generator = s.generator.skip (c.piece s).card ∧
      ∀ g, ChaCha.Agrees s.generator g (c.piece s).card →
        (g.uniforms c.a c.b c.n).1 = (s.generator.uniforms c.a c.b c.n).1 := by
  obtain ⟨k, hle, hk⟩ := s.generator.uniforms_reads c.a c.b c.n
  have hg : (s.call c).2.generator = s.generator.skip k := by
    rw [(generator_call s c).1 h, hk _ (.refl _ _)]
  have hcard : (c.piece s).card = k := by
    rw [Call.piece, Nat.card_Ico, hg]
    exact Nat.add_sub_cancel_left _ _
  rw [hcard]
  exact ⟨hle, hg, fun g hw => by rw [hk g hw]⟩

theorem drawn_le_call (s : Sampler) (c : Call) :
    s.generator.drawn ≤ (s.call c).2.generator.drawn := by
  by_cases h : c.Draws s
  · rw [(draws_piece h).2.1]
    exact Nat.le_add_right _ _
  · rw [(generator_call s c).2 h]

theorem drawn_le_run (s : Sampler) (cs : List Call) :
    s.generator.drawn ≤ (s.run cs).generator.drawn := by
  induction cs generalizing s with
  | nil => exact Nat.le_refl _
  | cons c cs ih => exact Nat.le_trans (drawn_le_call s c) (ih _)

theorem before_of_le (s : Sampler) (cs : List Call) (h : i ≤ j) :
    ∃ cs', s.before cs j = (s.before cs i).run cs' := by
  refine ⟨(cs.take j).drop i, ?_⟩
  have htake : cs.take i = (cs.take j).take i := by rw [List.take_take, Nat.min_eq_left h]
  rw [before, before, htake, ← run_append, List.take_append_drop]

theorem disjoint_pieces {c' : Call} (hij : i < j) (hi : cs[i]? = some c) :
    Disjoint (c.piece (s.before cs i)) (c'.piece (s.before cs j)) := by
  obtain ⟨cs', hcs'⟩ := before_of_le s cs (i := i + 1) (j := j) hij
  have hle := drawn_le_run (s.before cs (i + 1)) cs'
  rw [← hcs', before_succ hi] at hle
  rw [Finset.disjoint_left]
  intro p hp hp'
  have hp := (Finset.mem_Ico.1 hp).2
  have hp' := (Finset.mem_Ico.1 hp').1
  omega

/-! ## Calls that match the last draw -/

/-- A half-width or samples for the interval and the number of another call. -/
def Call.Follows (c' c : Call) : Prop :=
  c'.operation ≠ .integrate ∧ c'.a = c.a ∧ c'.b = c.b ∧ c'.n = c.n

theorem call_follows {c' : Call} (h : c'.Follows c) (hlast : s.last = some d)
    (hfor : d.isFor c.a c.b c.n = true) :
    (s.call c').2.generator = s.generator ∧ ∃ d', (s.call c').2.last = some d' ∧
      d'.isFor c.a c.b c.n = true ∧ d'.points.map Point.x = d.points.map Point.x := by
  obtain ⟨hop, ha, hb, hn⟩ := h
  have hfor' : d.isFor c'.a c'.b c'.n = true := by rw [ha, hb, hn]; exact hfor
  have hdraws : ¬ c'.Draws s := fun hd => hd.2.2.elim hop (absurd ⟨d, hlast, hfor'⟩)
  refine ⟨(generator_call s c').2 hdraws, ?_⟩
  by_cases hc : c'.Stores s
  · obtain ⟨ps, g, hp, -, hcall⟩ := call_stores hc
    obtain ⟨hfa, hfb, -, -⟩ := hc.1.bounds
    have hxs : ps.map Point.x = d.points.map Point.x := hp.of_not_draws hdraws hlast
    have hlen : ps.length = d.points.length := by simpa using congrArg List.length hxs
    refine ⟨_, by rw [hcall], ?_, hxs⟩
    rw [← ha, ← hb, ← (Draw.isFor_iff.1 hfor).2.2, ← hlen]
    exact Draw.isFor_self hfa hfb
  · exact ⟨d, (last_of_not_stores hc).trans hlast, hfor, rfl⟩

theorem run_follows (cs : List Call) (hcs : ∀ c' ∈ cs, c'.Follows c) (hlast : s.last = some d)
    (hfor : d.isFor c.a c.b c.n = true) :
    (s.run cs).generator = s.generator ∧
      (s.run cs).lastPoints.map Point.x = d.points.map Point.x := by
  induction cs generalizing s d with
  | nil =>
    refine ⟨rfl, ?_⟩
    show s.lastPoints.map Point.x = _
    rw [lastPoints, hlast]
    rfl
  | cons c' cs ih =>
    obtain ⟨hgen, d', hlast', hfor', hxs⟩ := call_follows (hcs c' List.mem_cons_self) hlast hfor
    obtain ⟨hgen', hxs'⟩ := ih (fun c'' hc'' => hcs c'' (List.mem_cons_of_mem _ hc'')) hlast' hfor'
    exact ⟨hgen'.trans hgen, hxs'.trans hxs⟩

/-- After a call that drew its points and stored them. -/
theorem run_of_drawn (hd : c.Draws s) (hc : c.Stores s) (hcs : ∀ c' ∈ cs, c'.Follows c) :
    ((s.call c).2.run cs).generator = (s.call c).2.generator ∧
      ((s.call c).2.run cs).lastPoints.map Point.x =
        (s.generator.uniforms c.a c.b c.n).1 := by
  obtain ⟨ps, g, hp, -, hcall⟩ := call_stores hc
  obtain ⟨ha, hb, -, -⟩ := hc.1.bounds
  have hxs : ps.map Point.x = (s.generator.uniforms c.a c.b c.n).1 := hp.of_draws hd
  have hfor : (⟨c.a, c.b, ps⟩ : Draw).isFor c.a c.b c.n = true :=
    length_of_drawn hxs ▸ Draw.isFor_self ha hb
  rw [hcall, ← hxs]
  exact run_follows cs hcs rfl hfor

/-! ## Summary -/

/-- What the calls on a fresh sampler have to do with each other. The last draw comes from
one call that drew and the last one that stored. A refused call changes nothing and one
whose integrand fails keeps the last draw. The generator moves in the calls that draw and
in no others, by a piece of the stream with a word or more for each position, which
decides the positions and which no other call reads. After a draw that was stored,
half-widths and samples for its interval and number move nothing. -/
theorem draws_accounted (g : ChaCha) (cs : List Call) :
    (∀ d, (run ⟨g, none⟩ cs).last = some d →
        ∃ j k drawer keeper, Origin ⟨g, none⟩ cs d j k drawer keeper) ∧
      (∀ (s : Sampler) (c : Call),
        (∀ e, (s.call c).1 = .error (.parameter e) → (s.call c).2 = s) ∧
          (∀ x cause, (s.call c).1 = .error (.evaluation x cause) →
            (s.call c).2.last = s.last) ∧
          (¬ c.Stores s → (s.call c).2.last = s.last)) ∧
      (∀ (s : Sampler) (c : Call),
        ((s.call c).2.generator ≠ s.generator ↔ c.Draws s) ∧
          (c.Draws s → (s.call c).2.generator = (s.generator.uniforms c.a c.b c.n).2 ∧
            c.n ≤ (c.piece s).card ∧
            ∀ g', ChaCha.Agrees s.generator g' (c.piece s).card →
              (g'.uniforms c.a c.b c.n).1 = (s.generator.uniforms c.a c.b c.n).1)) ∧
      (∀ (s : Sampler) (i j : Nat) (c c' : Call), i < j → cs[i]? = some c → cs[j]? = some c' →
        Disjoint (c.piece (s.before cs i)) (c'.piece (s.before cs j))) ∧
      ∀ (s : Sampler) (c : Call) (cs' : List Call), c.Draws s → c.Stores s →
        (∀ c' ∈ cs', c'.Follows c) →
          ((s.call c).2.run cs').generator = (s.call c).2.generator ∧
            ((s.call c).2.run cs').lastPoints.map Point.x =
              (s.generator.uniforms c.a c.b c.n).1 := by
  refine ⟨exists_origin rfl cs, fun s c => ⟨?_, ?_, ?_⟩, fun s c => ⟨⟨?_, ?_⟩, ?_⟩, ?_, ?_⟩
  · exact fun e => call_of_parameter
  · exact fun x cause => last_of_evaluation
  · exact last_of_not_stores
  · intro hne
    by_contra hd
    exact hne ((generator_call s c).2 hd)
  · intro hd heq
    obtain ⟨hle, hskip, -⟩ := draws_piece hd
    have hpos := hd.1.bounds.2.2.2
    have hdrawn : s.generator.drawn + (c.piece s).card = s.generator.drawn :=
      congrArg ChaCha.drawn (hskip.symm.trans heq)
    omega
  · intro hd
    obtain ⟨hle, -, hreads⟩ := draws_piece hd
    exact ⟨(generator_call s c).1 hd, hle, hreads⟩
  · exact fun s i j c c' hij hi _ => disjoint_pieces hij hi
  · exact fun s c cs' => run_of_drawn

/-- An integral and its half-width: the second call reads nothing from the stream and the
draw of the first one stays. -/
theorem draws_accounted_halfWidth :
    let c : Call := ⟨.integrate, fun x => .ok x, 0.0, 1.0, 2⟩
    let c' : Call := ⟨.errorBound, fun x => .ok (x * x), 0.0, 1.0, 2⟩
    (∃ d, (run ⟨.ofSeed 7, none⟩ [c, c']).last = some d ∧
        ∃ j k drawer keeper, Origin ⟨.ofSeed 7, none⟩ [c, c'] d j k drawer keeper) ∧
      Disjoint (c.piece ⟨.ofSeed 7, none⟩) (c'.piece (run ⟨.ofSeed 7, none⟩ [c])) := by
  intro c c'
  obtain ⟨horigin, -, -, hpieces, -⟩ := draws_accounted (.ofSeed 7) [c, c']
  obtain ⟨d, hd⟩ := Option.isSome_iff_exists.1
    (show (run ⟨.ofSeed 7, none⟩ [c, c']).last.isSome = true by decide +kernel)
  exact ⟨⟨d, hd, horigin d hd⟩, hpieces _ 0 1 c c' Nat.one_pos rfl rfl⟩

end Sampler

end Quadrature
