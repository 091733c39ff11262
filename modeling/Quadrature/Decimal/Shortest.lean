import Quadrature.Decimal.Basic
import Quadrature.Scalar.Binary64

/-!
# Shortest decimals

`shortest` gives the fewest digits that read back to a double. For one,
two, … digits the two neighbours of the value on that decimal grid are tried;
the first grid with a hit wins, and of two hits the nearer. `plainText` lays them out
without an exponent; it is the form of messages, reports and normalized expressions.
-/

namespace Quadrature

/-- Which of two equally near decimals of the same length is taken. -/
inductive Tie where
  | up
  | even

namespace Binary64

/-- Numerator and denominator of the magnitude in units of `10 ^ k`. -/
def inUnits (b : Binary64) (k : Int) : Nat × Nat :=
  (b.mantissa * Nat.pow 2 b.exponent.toNat * Nat.pow 10 (-k).toNat,
    Nat.pow 2 (-b.exponent).toNat * Nat.pow 10 k.toNat)

/-- `10 ^ k` is at most the magnitude. -/
def reaches (b : Binary64) (k : Int) : Bool :=
  let (n, d) := b.inUnits k
  d ≤ n

/-- The greatest `k` with `10 ^ k` at most the non-zero magnitude: an estimate
from the binary logarithm, corrected by one either way. -/
def leading (b : Binary64) : Int :=
  let k := ((b.mantissa.log2 : Int) + b.exponent) * 30103 / 100000
  if b.reaches (k + 1) then k + 1 else if b.reaches k then k else k - 1

/-- The magnitude with all its digits. -/
def exact (b : Binary64) : Decimal :=
  if 0 ≤ b.exponent then ⟨b.mantissa * Nat.pow 2 b.exponent.toNat, 0⟩
  else ⟨b.mantissa * Nat.pow 5 (-b.exponent).toNat, b.exponent⟩

/-- The neighbour of the magnitude on the grid `10 ^ k` that `good` accepts, the
nearer one when it accepts both. -/
def onGrid? (b : Binary64) (tie : Tie) (good : Decimal → Bool) (k : Int) : Option Decimal :=
  let (n, d) := b.inUnits k
  let below := Decimal.strip ⟨n / d, k⟩
  let above := Decimal.strip ⟨n / d + 1, k⟩
  match good below, good above with
  | false, false => none
  | true, false => some below
  | false, true => some above
  | true, true =>
    match compare (2 * (n % d)) d, tie with
    | .lt, _ => some below
    | .gt, _ => some above
    | .eq, .up => some above
    | .eq, .even => some (if n / d % 2 = 0 then below else above)

end Binary64

/-- The shortest decimal that reads back to the finite non-zero `x` without its
sign. -/
def shortest (tie : Tie) (x : Float) : Decimal :=
  let b := Binary64.ofFloat x
  let readsBack (d : Decimal) : Bool := d.unscaled.toFloat.toBits == x.abs.toBits
  let found := (List.range 17).findSome? fun (i : Nat) => b.onGrid? tie readsBack (b.leading - i)
  found.getD b.exact

/-! ## Layout -/

namespace Decimal

/-- The power of ten of the leading digit. -/
def order (d : Decimal) : Int :=
  d.magnitude - 1

/-- Digits and point only. An integer has no point. -/
def positional (d : Decimal) : List Char :=
  let ds := digitChars d.digits
  let places := (-d.exponent).toNat
  if 0 ≤ d.exponent then ds ++ List.replicate d.exponent.toNat '0'
  else if places < ds.length then
    ds.take (ds.length - places) ++ '.' :: ds.drop (ds.length - places)
  else '0' :: '.' :: List.replicate (places - ds.length) '0' ++ ds

end Decimal

/-- The sign of a double, NaN and zero included. -/
def isNegative (x : Float) : Bool :=
  (Binary64.ofFloat x).negative

def signText (x : Float) : String :=
  if isNegative x then "-" else ""

def plainText (x : Float) : String :=
  if x.isNaN then "NaN"
  else if !x.isFinite then signText x ++ "inf"
  else if x == 0.0 then signText x ++ "0"
  else signText x ++ String.ofList (shortest .up x).positional

end Quadrature
