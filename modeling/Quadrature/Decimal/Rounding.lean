import Quadrature.Decimal.Basic
import Quadrature.Scalar.Basic

/-!
# Rounding to places

Reports show numbers rounded to a number of places, a half going to the even
neighbour, without zeros at the end. A number whose scaled value is not finite
stays as it is.
-/

namespace Quadrature

/-! ## Fixed places

A rational written with a fixed number of places, rounded to nearest with ties to even.
-/

/-- `num / den` rounded to an integer, ties to even. -/
def divideEven (num den : Nat) : Nat :=
  let q := num / den
  match compare (2 * (num % den)) den with
  | .lt => q
  | .gt => q + 1
  | .eq => if q % 2 = 0 then q else q + 1

/-- `n` with the point `places` digits from the right and at least one digit
before it. -/
def pointed (n places : Nat) : List Char :=
  let ds := digitChars n
  let ds := List.replicate (places + 1 - ds.length) '0' ++ ds
  if places = 0 then ds
  else ds.take (ds.length - places) ++ '.' :: ds.drop (ds.length - places)

/-- The sign is kept when the digits round to zero. -/
def fixedChars (q : Rat) (places : Nat) : List Char :=
  let digits := pointed (divideEven (q.num.natAbs * Nat.pow 10 places) q.den) places
  if q < 0 then '-' :: digits else digits

/-! ## Scalars -/

variable {α : Type} [Scalar α]

/-- Two factors whose product is `10 ^ places`. Beyond 22 places the second is
`10 ^ 22`, so that neither overflows first; the exponent of the other is a signed
32-bit number. -/
def scaleFactors (places : Nat) : α × α :=
  if 22 < places then (Scalar.pow 10.0 (Int.bmod (places - 22 : Nat) UInt32.size), 1e22)
  else (Scalar.pow 10.0 places, 1.0)

/-- The even integer nearest to a half-integer, otherwise the nearest integer. -/
def roundEven (y : α) : α :=
  let z := Scalar.round y
  if Scalar.abs (y - z) == 0.5 then 2.0 * Scalar.round (y / 2.0) else z

def roundTo (x : α) (places : Nat) : α :=
  if !Scalar.isFinite x then x
  else
    let (p, q) := scaleFactors places
    let y := x * p * q
    if !Scalar.isFinite y then x else roundEven y / q / p

/-- Drops zeros at the end of the fraction, and a point that ends the text. -/
def dropZeros (cs : List Char) : List Char :=
  if cs.contains '.' then
    ((cs.reverse.dropWhile (· == '0')).dropWhile (· == '.')).reverse
  else cs

/-- Zero of either sign is `0`. As many places as the denominator has binary digits
hold every digit of a finite decimal, so that more would only add zeros. -/
def roundedText (x : α) (places : Nat) : String :=
  let r := roundTo x places
  if r == 0.0 then "0"
  else if Scalar.isNaN r then "NaN"
  else if !Scalar.isFinite r then if r < 0.0 then "-inf" else "inf"
  else
    let q := Scalar.value r
    String.ofList (dropZeros (fixedChars q (min places q.den.log2)))

end Quadrature
