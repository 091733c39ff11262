/-!
# Outcomes of calls

What a call writes and the code with which it ends, first of all when it computes
nothing.
-/

namespace Quadrature

namespace CommandLine

/-- Why a call computes nothing. -/
inductive Exit where
  | usage
  | version
  | help
  deriving DecidableEq

/-- What a call writes, and the code with which it ends. -/
structure Outcome where
  code : Nat
  stdout : String
  stderr : String
  deriving DecidableEq

def usageLine : String :=
  "Usage: compquad [OPTIONS] <FUNCTION> <A> <B> <N>"

def helpLines : List String :=
  ["Compare numerical integration rules on one function",
   "",
   usageLine,
   "",
   "Arguments:",
   "  <FUNCTION>  Expression in x, or @id of a predefined function",
   "  <A>         Lower bound",
   "  <B>         Upper bound",
   "  <N>         Number of subintervals (Monte Carlo: number of samples)",
   "",
   "Options:",
   "      --config <CONFIG>  JSON configuration file",
   "      --rules <RULES>    Comma separated rule ids, e.g. trapezoidal,simpson1/3",
   "      --no-convergence   Skip the convergence sweep",
   "      --json             Print the report as JSON",
   "      --digits <DIGITS>  Decimal digits in the text report",
   "      --seed <SEED>      Monte Carlo seed",
   "  -h, --help             Print help",
   "  -V, --version          Print version"]

def Exit.outcome : Exit → Outcome
  | usage => ⟨2, "", "error: wrong arguments\n\n" ++ usageLine ++ "\n"⟩
  | version => ⟨0, "compquad 0.1.0\n", ""⟩
  | help => ⟨0, String.join (helpLines.map (· ++ "\n")), ""⟩

end CommandLine

end Quadrature
