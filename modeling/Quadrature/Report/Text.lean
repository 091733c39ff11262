import Quadrature.Decimal.Rounding
import Quadrature.Report.Basic

/-!
# Reports as text

A head of named lines, a table with a row for each rule, and, if there was a sweep,
a table with a row for each count. Numbers in the tables are rounded and end at the
right of their columns; those of the interval are written in full.
-/

namespace Quadrature

namespace Report

def space (width : Nat) (text : String) : String :=
  String.ofList (List.replicate (width - text.length) ' ')

def alignLeft (width : Nat) (text : String) : String :=
  text ++ space width text

def alignRight (width : Nat) (text : String) : String :=
  space width text ++ text

/-- A number in a table; a dash stands for none. -/
def cell (r : Report) (value : Option Float) : String :=
  value.elim "-" (roundedText · r.digits)

def headLines (r : Report) : List String :=
  ["Report " ++ r.stamp.id.text ++ " (" ++ r.stamp.createdAt.headline ++ ")",
   "Function:    " ++ r.label,
   "Normalized:  " ++ r.normalized]
  ++ ((r.description.filter (· ≠ "")).map ("Description: " ++ ·)).toList
  ++ ["Interval:    [" ++ plainText r.a ++ ", " ++ plainText r.b ++ "], n = " ++ toString r.n,
      "Exact value: " ++ r.cell r.exact,
      ""]

/-! ## Results -/

def resultLine (rule value bound absolute relative : String) : String :=
  " ".intercalate
    [alignLeft 12 rule, alignRight 18 value, alignRight 18 bound, alignRight 18 absolute,
     alignRight 16 relative]

def resultLineOf (r : Report) (result : RuleResult) : String :=
  match result.failure with
  | some message => alignLeft 12 result.rule.name ++ " failed: " ++ message
  | none =>
    resultLine result.rule.name (r.cell result.value) (r.cell result.errorBound)
      (r.cell result.absoluteError) (r.cell result.relativeError)

def resultLines (r : Report) : List String :=
  resultLine "Rule" "Value" "Error bound" "Abs. error" "Rel. error (%)"
    :: r.results.map r.resultLineOf

/-! ## Convergence -/

def countLine (count : String) (cells : List String) : String :=
  " ".intercalate (alignRight 4 count :: cells.map (alignRight 18))

/-- The columns are the rules of the results. -/
def convergenceLines (r : Report) : List String :=
  if r.convergence.isEmpty then []
  else
    let rules := r.results.map (·.rule)
    "" :: countLine "n" (rules.map Rule.name)
      :: r.convergence.map fun p =>
        countLine (toString p.n) (rules.map fun rule => r.cell (p.values.get? rule))

/-- Every line has its end. -/
def text (r : Report) : String :=
  String.join ((r.headLines ++ r.resultLines ++ r.convergenceLines).map (· ++ "\n"))

end Report

end Quadrature
