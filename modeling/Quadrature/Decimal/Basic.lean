/-!
# Decimals

Numbers of the form `digits * 10 ^ exponent`, the double nearest to one, and
the digits of natural numbers as text.
-/

namespace Quadrature

/-- The number `digits * 10 ^ exponent`. -/
structure Decimal where
  digits : Nat
  exponent : Int
  deriving DecidableEq, Repr

def infinity : Float := 1.0 / 0.0

def notANumber : Float := 0.0 / 0.0

/-- The number a list of decimal digits stands for. -/
def digitsValue (cs : List Char) : Nat :=
  cs.foldl (fun n c => 10 * n + (c.toNat - '0'.toNat)) 0

def digitChars (n : Nat) : List Char :=
  Nat.toDigits 10 n

namespace Decimal

/-- The power of ten of the leading digit plus one, for non-zero digits. -/
def magnitude (d : Decimal) : Int :=
  d.exponent + (digitChars d.digits).length

/-- The nearest double, ties to even. Numbers of 2 ^ 1100 and more overflow, whatever
their exponent: three powers of two are at most one power of ten. -/
def toFloat (d : Decimal) : Float :=
  if d.digits ≠ 0 ∧ 0 ≤ d.exponent ∧ 1100 < d.digits.log2 + 3 * d.exponent then infinity
  else .ofModel (.ofScientific d.digits d.exponent)

/-- The same number without a positive power of ten, as its digits are read from
a text that has no exponent. -/
def unscaled (d : Decimal) : Decimal :=
  if 0 ≤ d.exponent then ⟨d.digits * Nat.pow 10 d.exponent.toNat, 0⟩ else d

/-- The same number without zeros at the end of its digits. -/
def strip (d : Decimal) : Decimal :=
  if h : d.digits ≠ 0 ∧ d.digits % 10 = 0 then
    strip ⟨d.digits / 10, d.exponent + 1⟩
  else d
termination_by d.digits

end Decimal

end Quadrature
