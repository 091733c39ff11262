import Quadrature.Random.ChaCha

/-!
# Uniform positions

Doubles drawn uniformly from `[a, b)`. A word gives the 52 fraction bits of a
number below one, which is scaled to the interval; a result that rounds to `b` is
drawn again.
-/

namespace Quadrature

namespace ChaCha

/-- A number in `[0, 1)` with the upper 52 bits of a word as its fraction. -/
def fraction (word : UInt64) : Float :=
  Float.ofBits ((word >>> 12) ||| 0x3FF0000000000000) - 1.0

/-- The number of words after which the stream repeats. -/
def period : Nat := Nat.pow 2 67

/-- The first of at most `attempts` words whose scaled fraction lies in `[a, b)`
decides; if there is none the answer is `a`. -/
def uniformWithin (a b : Float) : Nat → ChaCha → Float × ChaCha
  | 0, g => (a, g)
  | attempts + 1, g =>
    let (word, g) := g.next
    let x := fraction word * (b - a) + a
    if a ≤ x && x < b then (x, g) else uniformWithin a b attempts g

def uniform (g : ChaCha) (a b : Float) : Float × ChaCha :=
  uniformWithin a b period g

/-- Draws `n` positions after those in `drawn`, which are in reverse order. -/
def uniformsAfter (a b : Float) : Nat → List Float → ChaCha → List Float × ChaCha
  | 0, drawn, g => (drawn.reverse, g)
  | n + 1, drawn, g =>
    let (x, g) := g.uniform a b
    uniformsAfter a b n (x :: drawn) g

def uniforms (g : ChaCha) (a b : Float) (n : Nat) : List Float × ChaCha :=
  uniformsAfter a b n [] g

end ChaCha

end Quadrature
