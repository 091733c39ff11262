import Quadrature.Random.Uniform
import Quadrature.Rule.Error
import Quadrature.Scalar.Dot

/-!
# Monte Carlo

The mean of the integrand at random positions, and the half-width of its 95 %
confidence interval. A sampler keeps its generator and the points of its last
complete draw; half-widths and samples for the same interval and number use the
positions of that draw again, with the integrand they are given.
-/

namespace Quadrature

structure Point where
  (x y : Float)
  deriving DecidableEq

/-- The points drawn from one interval. -/
structure Draw where
  (a b : Float)
  points : List Point
  deriving DecidableEq

def Draw.isFor (d : Draw) (a b : Float) (n : Nat) : Bool :=
  d.a == a && d.b == b && d.points.length == n

structure Sampler where
  generator : ChaCha
  last : Option Draw
  deriving DecidableEq

namespace Sampler

def ofSeed (seed : UInt64) : Sampler :=
  ⟨.ofSeed seed, none⟩

/-- The points of the last draw. -/
def lastPoints (s : Sampler) : List Point :=
  s.last.elim [] Draw.points

/-- Only a draw whose points all have values is kept. -/
def evaluateAt (s : Sampler) (f : Integrand Float) (a b : Float) (xs : List Float) :
    Except (RuleError Float) (List Point) × Sampler :=
  match sample f xs with
  | .error e => (.error e, s)
  | .ok ys =>
    let points := List.zipWith Point.mk xs ys
    (.ok points, { s with last := some ⟨a, b, points⟩ })

def draw (s : Sampler) (f : Integrand Float) (a b : Float) (n : Nat) :
    Except (RuleError Float) (List Point) × Sampler :=
  let (xs, g) := s.generator.uniforms a b n
  evaluateAt { s with generator := g } f a b xs

/-- The positions of the last draw, if it was for the same interval and number. -/
def positions? (s : Sampler) (a b : Float) (n : Nat) : Option (List Float) :=
  (s.last.filter (·.isFor a b n)).map fun d => d.points.map Point.x

/-- The points of the last draw with new values, or those of a new draw. -/
def points (s : Sampler) (f : Integrand Float) (a b : Float) (n : Nat) :
    Except (RuleError Float) (List Point) × Sampler :=
  match s.positions? a b n with
  | some xs => s.evaluateAt f a b xs
  | none => s.draw f a b n

/-- Runs an operation only on parameters that the rule admits. -/
def guarded {β : Type} (s : Sampler) (a b : Float) (n : Nat)
    (run : Sampler → Except (RuleError Float) β × Sampler) :
    Except (RuleError Float) β × Sampler :=
  match Rule.monteCarlo.check a b n with
  | .error e => (.error (.parameter e), s)
  | .ok () => run s

def estimate (a b : Float) (points : List Point) : Except (RuleError Float) Float :=
  Rule.monteCarlo.finite ((b - a) * mean (points.map Point.y))

/-- The sum of the squared deviations over the number of points less one. -/
def variance (ys : List Float) : Float :=
  let m := mean ys
  sum (ys.map fun y => Scalar.pow (y - m) 2) / Float.ofNat (ys.length - 1)

def halfWidth (a b : Float) (points : List Point) : Except (RuleError Float) Float :=
  let ys := points.map Point.y
  Rule.monteCarlo.finite (1.96 * (b - a) * (variance ys / Float.ofNat ys.length).sqrt)

def integrate (s : Sampler) (f : Integrand Float) (a b : Float) (n : Nat) :
    Except (RuleError Float) Float × Sampler :=
  s.guarded a b n fun s =>
    let (points, s) := s.draw f a b n
    (points.bind (estimate a b), s)

/-- One point has no half-width and draws nothing. -/
def errorBound (s : Sampler) (f : Integrand Float) (a b : Float) (n : Nat) :
    Except (RuleError Float) (Option Float) × Sampler :=
  s.guarded a b n fun s =>
    if n < 2 then (.ok none, s)
    else
      let (points, s) := s.points f a b n
      (points.bind fun ps => (halfWidth a b ps).map some, s)

def samples (s : Sampler) (f : Integrand Float) (a b : Float) (n : Nat) :
    Except (RuleError Float) (List Point) × Sampler :=
  s.guarded a b n (·.points f a b n)

end Sampler

end Quadrature
