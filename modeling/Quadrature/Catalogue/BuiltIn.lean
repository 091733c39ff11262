import Quadrature.Catalogue.Entry

/-!
# Built-in entries

The entries of every catalogue before anything is added to it, with their formulas
as expressions. `spells_builtIn` says that these are what the texts mean.
-/

namespace Quadrature

namespace Entry

open Expression in
def builtIn : List Entry :=
  [{ name := "square"
     label := "x²"
     description := "Simple parabola; Simpson's rule is exact for it."
     formula := ⟨"x^2", binary .pow var (number 2.0)⟩
     antiderivative := some ⟨"x^3/3", binary .div (binary .pow var (number 3.0)) (number 3.0)⟩
     singularities := [] },
   { name := "cube"
     label := "x³"
     description := "Cubic polynomial; both Simpson rules are exact for it."
     formula := ⟨"x^3", binary .pow var (number 3.0)⟩
     antiderivative := some ⟨"x^4/4", binary .div (binary .pow var (number 4.0)) (number 4.0)⟩
     singularities := [] },
   { name := "sine"
     label := "sin(x)"
     description := "Smooth periodic function."
     formula := ⟨"sin(x)", call .sin var⟩
     antiderivative := some ⟨"-cos(x)", neg (call .cos var)⟩
     singularities := [] },
   { name := "cosine"
     label := "cos(x)"
     description := "Smooth periodic function."
     formula := ⟨"cos(x)", call .cos var⟩
     antiderivative := some ⟨"sin(x)", call .sin var⟩
     singularities := [] },
   { name := "exponential"
     label := "eˣ"
     description := "Every derivative equals the function itself."
     formula := ⟨"e^x", call .exp var⟩
     antiderivative := some ⟨"e^x", call .exp var⟩
     singularities := [] },
   { name := "reciprocal"
     label := "1/x"
     description := "Singular at 0; integrate over intervals not containing 0."
     formula := ⟨"1/x", binary .div (number 1.0) var⟩
     antiderivative := some ⟨"ln(abs(x))", call .ln (call .abs var)⟩
     singularities := [0.0] },
   { name := "square_root"
     label := "√x"
     description := "Unbounded derivative at 0."
     formula := ⟨"sqrt(x)", call .sqrt var⟩
     antiderivative := some ⟨"2x^1.5/3",
       binary .div (binary .mul (number 2.0) (binary .pow var (number 1.5))) (number 3.0)⟩
     singularities := [] },
   { name := "natural_log"
     label := "ln(x)"
     description := "Defined for x > 0."
     formula := ⟨"ln(x)", call .ln var⟩
     antiderivative := some ⟨"x*ln(x)-x", binary .sub (binary .mul var (call .ln var)) var⟩
     singularities := [] },
   { name := "arctan_kernel"
     label := "1/(1+x²)"
     description := "Integrates to π/4 over [0, 1]."
     formula := ⟨"1/(1+x^2)",
       binary .div (number 1.0) (binary .add (number 1.0) (binary .pow var (number 2.0)))⟩
     antiderivative := some ⟨"atan(x)", call .atan var⟩
     singularities := [] },
   { name := "x_sine"
     label := "x·sin(x)"
     description := "Integration by parts example."
     formula := ⟨"x*sin(x)", binary .mul var (call .sin var)⟩
     antiderivative := some ⟨"sin(x)-x*cos(x)",
       binary .sub (call .sin var) (binary .mul var (call .cos var))⟩
     singularities := [] },
   { name := "gaussian"
     label := "e^(-x²)"
     description := "No elementary antiderivative; no exact value is reported."
     formula := ⟨"e^(-x^2)", call .exp (neg (binary .pow var (number 2.0)))⟩
     antiderivative := none
     singularities := [] }]

theorem spells_builtIn :
    ∀ f ∈ builtIn.flatMap (fun e => e.formula :: e.antiderivative.toList),
      (Expression.ofFolded (Text.foldChars f.source.toList)).toOption = some f.body := by
  decide +kernel

end Entry

end Quadrature
