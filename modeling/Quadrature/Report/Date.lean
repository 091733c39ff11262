/-!
# Dates

Days of the Gregorian calendar, carried on in both directions, and their numbers
counted from 1 January 1970.
-/

namespace Quadrature

structure Date where
  year : Int
  (month day : Nat)
  deriving DecidableEq

namespace Date

def isLeap (year : Int) : Bool :=
  year % 4 = 0 ∧ (year % 100 ≠ 0 ∨ year % 400 = 0)

def monthLengths (year : Int) : List Nat :=
  [31, if isLeap year then 29 else 28, 31, 30, 31, 30, 31, 31, 30, 31, 30, 31]

def isValid (d : Date) : Bool :=
  1 ≤ d.month ∧ 1 ≤ d.day ∧ d.day ≤ ((monthLengths d.year)[d.month - 1]?).getD 0

/-- The days from the first of January of year 1 to that of a year. -/
def daysBefore (year : Int) : Int :=
  365 * (year - 1) + (year - 1) / 4 - (year - 1) / 100 + (year - 1) / 400

/-- The number of 1 January 1970, counted from that of year 1. -/
def epoch : Int := 719162

/-- The sum of the first lengths. -/
def daysOf : Nat → List Nat → Nat
  | 0, _ | _, [] => 0
  | months + 1, length :: lengths => length + daysOf months lengths

def toDays (d : Date) : Int :=
  daysBefore d.year + (daysOf (d.month - 1) (monthLengths d.year) + (d.day - 1) : Nat) - epoch

/-- The year to which a day belongs, counted from 1 January of year 1. The mean
length of a year gives it up to one. -/
def yearOfDay (n : Int) : Int :=
  let year := 400 * n / 146097 + 1
  if n < daysBefore year then year - 1
  else if daysBefore (year + 1) ≤ n then year + 1
  else year

/-- Month and day, counted from one, for a day counted from zero within the months
of the given lengths. -/
def monthAndDay : List Nat → Nat → Nat × Nat
  | [], n => (1, n + 1)
  | length :: lengths, n =>
    if n < length then (1, n + 1)
    else
      let (month, day) := monthAndDay lengths (n - length)
      (month + 1, day)

def ofDays (n : Int) : Date :=
  let year := yearOfDay (n + epoch)
  let (month, day) := monthAndDay (monthLengths year) (n + epoch - daysBefore year).toNat
  ⟨year, month, day⟩

end Date

end Quadrature
