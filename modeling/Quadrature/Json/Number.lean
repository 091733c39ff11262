import Quadrature.Decimal.Shortest
import Quadrature.Decimal.Numeral

/-!
# Numbers in documents

A number is kept as it is written and read when its kind is known. As a double it
is read by a 64-bit significand and one scaling by a power of ten, which is exact
for short literals and may be off by a unit in the last place for long ones; a
value beyond the greatest double is refused.
-/

namespace Quadrature

structure JsonNumber where
  negative : Bool
  numeral : Numeral
  deriving DecidableEq

/-- Appends digits to a significand as long as it fits 64 bits, and gives the
digits left over. -/
def takeSignificand (s : Nat) : List Char → Nat × List Char
  | [] => (s, [])
  | c :: cs =>
    let t := 10 * s + digitsValue [c]
    if t < UInt64.size then takeSignificand t cs else (s, c :: cs)

/-- `x * 10 ^ e` by one multiplication or division, after steps of `10 ^ 308` for
very small exponents; `none` on overflow. -/
def scaleByTen (x : Float) (e : Int) : Option Float :=
  if e.natAbs ≤ 308 then
    let p := Float.ofScientific 1 false e.natAbs
    if e < 0 then some (x / p) else if (x * p).isFinite then some (x * p) else none
  else if x == 0.0 then some x
  else if 0 < e then none
  else scaleByTen (x / 1e308) (e + 308)
termination_by (-e).toNat

namespace JsonNumber

/-- The significand and the power of ten by which a literal is read. Digits of the
whole part that do not fit raise the power, digits of the fraction that do not fit
are dropped. -/
def scaled (n : Numeral) : Decimal :=
  let (s, dropped) := takeSignificand 0 n.whole
  let fraction := n.fraction.getD []
  let (s, rest) := takeSignificand s fraction
  ⟨s, dropped.length - (fraction.length - rest.length : Nat) + n.power.elim 0 TenPower.value⟩

def toFloat? (n : JsonNumber) : Option Float :=
  let d := scaled n.numeral
  (scaleByTen (Float.ofNat d.digits) d.exponent).map fun x => if n.negative then -x else x

/-- A natural number below `2 ^ 64` without sign, point and power. -/
def toNat? (n : JsonNumber) : Option Nat :=
  match n with
  | ⟨false, ⟨whole, none, none⟩⟩ =>
    if digitsValue whole < UInt64.size then some (digitsValue whole) else none
  | _ => none

def text (n : JsonNumber) : List Char :=
  if n.negative then '-' :: n.numeral.text else n.numeral.text

def ofNat (n : Nat) : JsonNumber :=
  ⟨false, ⟨digitChars n, none, none⟩⟩

/-- The shortest digits, positionally with a fraction if the leading digit stands
between the fifth place after the point and the sixteenth before it. -/
def ofDecimal (d : Decimal) : Numeral :=
  let ds := digitChars d.digits
  let places := (-d.exponent).toNat
  if -5 ≤ d.order ∧ d.order ≤ 15 then
    if 0 ≤ d.exponent then ⟨ds ++ List.replicate d.exponent.toNat '0', some ['0'], none⟩
    else if places < ds.length then
      ⟨ds.take (ds.length - places), some (ds.drop (ds.length - places)), none⟩
    else ⟨['0'], some (List.replicate (places - ds.length) '0' ++ ds), none⟩
  else
    let power : TenPower := ⟨'e', some (if d.order < 0 then '-' else '+'), digitChars d.order.natAbs⟩
    match ds.drop 1 with
    | [] => ⟨ds, none, some power⟩
    | cs => ⟨ds.take 1, some cs, some power⟩

/-- The number of a finite double. -/
def ofFloat (x : Float) : JsonNumber :=
  ⟨isNegative x, if x == 0.0 then ⟨['0'], some ['0'], none⟩ else ofDecimal (shortest .even x)⟩

end JsonNumber

end Quadrature
