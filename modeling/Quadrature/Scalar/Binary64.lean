import Quadrature.Scalar.Basic

/-!
# Binary64 scalars

IEEE doubles as scalars: each operation is the exact result rounded once to
nearest. `Binary64` is the exact value of a finite double as an integer times
a power of two. The elementary functions are those of the machine's mathematical
library; programs use them and so do examples of their runs, while general
theorems hold for any functions.
-/

namespace Quadrature

/-- The value `mantissa * 2 ^ exponent`, negated when `negative`. -/
structure Binary64 where
  negative : Bool
  mantissa : Nat
  exponent : Int

namespace Binary64

/-- The fields of a finite double. -/
def ofFloat (x : Float) : Binary64 :=
  let bits := x.toBits
  let biased := ((bits >>> 52) &&& 0x7FF).toNat
  let fraction := (bits &&& 0xFFFFFFFFFFFFF).toNat
  let negative := bits >>> 63 == 1
  if biased = 0 then ⟨negative, fraction, -1074⟩
  else ⟨negative, 0x10000000000000 + fraction, (biased : Int) - 1075⟩

def toRat (b : Binary64) : Rat :=
  let magnitude : Rat := b.mantissa * (2 : Rat) ^ b.exponent
  if b.negative then -magnitude else magnitude

end Binary64

instance : Scalar Float where
  natCast := Float.ofNat
  decidableLT := inferInstance
  decidableLE := inferInstance
  abs := Float.abs
  round := Float.round
  isNaN := Float.isNaN
  isFinite := Float.isFinite
  value x := (Binary64.ofFloat x).toRat
  count k := k % UInt64.size

instance : Elementary Float where
  sin := Float.sin
  cos := Float.cos
  tan := Float.tan
  asin := Float.asin
  acos := Float.acos
  atan := Float.atan
  sinh := Float.sinh
  cosh := Float.cosh
  tanh := Float.tanh
  sqrt := Float.sqrt
  exp := Float.exp
  ln := Float.log
  log10 := Float.log10
  power := Float.pow

end Quadrature
