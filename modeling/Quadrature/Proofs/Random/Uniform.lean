import Mathlib
import Quadrature.Proofs.Scalar.Packing
import Quadrature.Random.Uniform

/-!
# Draws from the stream

A draw reads the words of its stream one after another. Each of its positions lies in the
interval (`mem_uniforms`) and costs at least one word, and what is drawn depends on the
words that are read and on no others (`uniforms_reads`).
-/

namespace Quadrature

namespace ChaCha

variable {g h : ChaCha} {a b : Float} {n attempts : Nat}

/-- The generator after `k` more words. -/
def skip (g : ChaCha) (k : Nat) : ChaCha :=
  { g with drawn := g.drawn + k }

theorem skip_skip (k l : Nat) : (g.skip k).skip l = g.skip (k + l) := by
  simp only [skip, Nat.add_assoc]

/-- The next `k` words of `h` are those of `g`. -/
def Agrees (g h : ChaCha) (k : Nat) : Prop :=
  ∀ i < k, word h.key (h.drawn + i) = word g.key (g.drawn + i)

theorem Agrees.refl (g : ChaCha) (k : Nat) : Agrees g g k := fun _ _ => rfl

theorem Agrees.mono {k l : Nat} (hw : Agrees g h l) (hkl : k ≤ l) : Agrees g h k :=
  fun i hi => hw i (Nat.lt_of_lt_of_le hi hkl)

theorem Agrees.skip {k l : Nat} (hw : Agrees g h (k + l)) : Agrees (g.skip k) (h.skip k) l := by
  intro i hi
  have hword := hw (k + i) (by omega)
  rwa [← Nat.add_assoc, ← Nat.add_assoc] at hword

/-! ## One position -/

/-- The number that a word gives for an interval. -/
def scaled (a b : Float) (word : UInt64) : Float :=
  fraction word * (b - a) + a

theorem uniformWithin_succ : uniformWithin a b (attempts + 1) g =
    if a ≤ scaled a b (word g.key g.drawn) && scaled a b (word g.key g.drawn) < b then
      (scaled a b (word g.key g.drawn), g.skip 1)
    else uniformWithin a b attempts (g.skip 1) := rfl

theorem uniformWithin_reads (g : ChaCha) (a b : Float) (attempts : Nat) :
    ∃ k, (0 < attempts → 0 < k) ∧ ∀ h, Agrees g h k →
      uniformWithin a b attempts h = ((uniformWithin a b attempts g).1, h.skip k) := by
  induction attempts generalizing g with
  | zero => exact ⟨0, fun h0 => h0, fun _ _ => rfl⟩
  | succ attempts ih =>
    obtain ⟨k, -, hk⟩ := ih (g.skip 1)
    by_cases hin : (a ≤ scaled a b (word g.key g.drawn) && scaled a b (word g.key g.drawn) < b) = true
    · refine ⟨1, fun _ => Nat.one_pos, fun h hw => ?_⟩
      have hword : word h.key h.drawn = word g.key g.drawn := hw 0 Nat.one_pos
      rw [uniformWithin_succ, uniformWithin_succ, hword, if_pos hin, if_pos hin]
    · refine ⟨1 + k, fun _ => by omega, fun h hw => ?_⟩
      have hword : word h.key h.drawn = word g.key g.drawn := hw 0 (by omega)
      rw [uniformWithin_succ, uniformWithin_succ, hword, if_neg hin, if_neg hin, hk _ hw.skip,
        skip_skip]

/-- A position lies in its interval, also the one that is given up for. -/
theorem mem_uniformWithin (ha : a.isFinite = true) (hab : a < b) :
    a ≤ (uniformWithin a b attempts g).1 ∧ (uniformWithin a b attempts g).1 < b := by
  induction attempts generalizing g with
  | zero => exact ⟨le_self ha, hab⟩
  | succ attempts ih =>
    rw [uniformWithin_succ]
    split
    · next hin => simpa using hin
    · exact ih

/-! ## Many positions -/

theorem uniformsAfter_succ (drawn : List Float) :
    uniformsAfter a b (n + 1) drawn g =
      uniformsAfter a b n ((g.uniform a b).1 :: drawn) (g.uniform a b).2 := by
  rw [uniformsAfter]

theorem uniformsAfter_eq (drawn : List Float) :
    uniformsAfter a b n drawn g =
      (drawn.reverse ++ (g.uniforms a b n).1, (g.uniforms a b n).2) := by
  induction n generalizing drawn g with
  | zero =>
    rw [uniforms, uniformsAfter, uniformsAfter]
    simp
  | succ n ih =>
    rw [uniforms, uniformsAfter_succ, uniformsAfter_succ, ih, ih [_]]
    simp

theorem uniforms_succ : g.uniforms a b (n + 1) =
    ((g.uniform a b).1 :: ((g.uniform a b).2.uniforms a b n).1,
      ((g.uniform a b).2.uniforms a b n).2) := by
  rw [uniforms, uniformsAfter_succ, uniformsAfter_eq]
  rfl

theorem length_uniforms : (g.uniforms a b n).1.length = n := by
  induction n generalizing g with
  | zero => rfl
  | succ n ih => rw [uniforms_succ, List.length_cons, ih]

theorem mem_uniforms (ha : a.isFinite = true) (hab : a < b) :
    ∀ x ∈ (g.uniforms a b n).1, a ≤ x ∧ x < b := by
  induction n generalizing g with
  | zero => intro x hx; cases hx
  | succ n ih =>
    intro x hx
    rw [uniforms_succ] at hx
    cases hx with
    | head => exact mem_uniformWithin ha hab
    | tail _ hx => exact ih x hx

/-- The draw of `n` positions reads a piece of at least `n` words: a generator that goes on
with the same words draws the same positions and is as many words further afterwards. -/
theorem uniforms_reads (g : ChaCha) (a b : Float) (n : Nat) :
    ∃ k, n ≤ k ∧ ∀ h, Agrees g h k → h.uniforms a b n = ((g.uniforms a b n).1, h.skip k) := by
  induction n generalizing g with
  | zero => exact ⟨0, Nat.le_refl 0, fun _ _ => rfl⟩
  | succ n ih =>
    obtain ⟨k, hpos, hk⟩ := uniformWithin_reads g a b period
    have hpos : 0 < k := hpos (by decide)
    have hg : (g.uniform a b).2 = g.skip k := congrArg Prod.snd (hk g (.refl g k))
    obtain ⟨l, hle, hl⟩ := ih (g.skip k)
    refine ⟨k + l, by omega, fun h hw => ?_⟩
    have hh : h.uniform a b = ((g.uniform a b).1, h.skip k) := hk h (hw.mono (by omega))
    rw [uniforms_succ, uniforms_succ, hh, hg, hl _ hw.skip, skip_skip]

end ChaCha

end Quadrature
