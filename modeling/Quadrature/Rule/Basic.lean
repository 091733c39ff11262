import Quadrature.Text

/-!
# Rules

The quadrature rules, their names and the spellings under which they can be
asked for. Reports and maps list rules in the order of `Rule.all`.
-/

namespace Quadrature

/-- The rules whose abscissae depend only on the interval and the number of
panels. -/
inductive FixedRule where
  | trapezoidal
  | midpoint
  | simpsonOneThird
  | simpsonThreeEighths
  deriving DecidableEq

inductive Rule where
  | fixed (r : FixedRule)
  | monteCarlo
  deriving DecidableEq

namespace Rule

def all : List Rule :=
  [fixed .trapezoidal, fixed .midpoint, fixed .simpsonOneThird, fixed .simpsonThreeEighths,
   monteCarlo]

def name : Rule → String
  | fixed .trapezoidal => "Trapezoidal"
  | fixed .midpoint => "Midpoint"
  | fixed .simpsonOneThird => "Simpson1/3"
  | fixed .simpsonThreeEighths => "Simpson3/8"
  | monteCarlo => "MonteCarlo"

def ofName? (name : String) : Option Rule :=
  all.find? (·.name == name)

/-- The place of a rule in `all`. -/
def place (r : Rule) : Nat :=
  all.idxOf r

def sort (rs : List Rule) : List Rule :=
  rs.mergeSort fun r s => r.place ≤ s.place

/-- A spelling without its case, white space and marks. -/
def key (spelling : String) : String :=
  Text.fold (String.ofList (spelling.toList.filter fun c => !(['-', '_', '/', '\''].contains c)))

def ofSpelling? (spelling : String) : Option Rule :=
  match key spelling with
  | "trapezoidal" | "trapezoid" | "trap" => some (fixed .trapezoidal)
  | "midpoint" | "mid" => some (fixed .midpoint)
  | "simpson13" | "simpson" | "simpsons" => some (fixed .simpsonOneThird)
  | "simpson38" | "simpsons38" => some (fixed .simpsonThreeEighths)
  | "montecarlo" | "mc" => some monteCarlo
  | _ => none

/-- What is said of a spelling that names no rule. -/
def unknownMessage (spelling : String) : String :=
  "unknown quadrature rule '" ++ spelling ++ "'"

def minPanels : Rule → Nat
  | fixed .simpsonThreeEighths => 3
  | _ => 1

end Rule

end Quadrature
