import Quadrature.Rule.Fixed
import Quadrature.Rule.Sampler

/-!
# Methods

A rule ready to be used, with the state it carries from call to call. Every
operation gives its outcome and the method to go on with.
-/

namespace Quadrature

inductive Method where
  | fixed (r : FixedRule)
  | monteCarlo (s : Sampler)
  deriving DecidableEq

namespace Method

def rule : Method → Rule
  | fixed r => .fixed r
  | monteCarlo _ => .monteCarlo

/-- A fresh method; only Monte Carlo makes use of the seed. -/
def ofRule (seed : UInt64) : Rule → Method
  | .fixed r => fixed r
  | .monteCarlo => monteCarlo (.ofSeed seed)

/-- An outcome of the sampler of a method. -/
def withSampler {β : Type} (r : β × Sampler) : β × Method :=
  (r.1, monteCarlo r.2)

def integrate (f : Integrand Float) (a b : Float) (n : Nat) :
    Method → Except (RuleError Float) Float × Method
  | fixed r => (r.integrate f a b n, fixed r)
  | monteCarlo s => withSampler (s.integrate f a b n)

def errorBound (f : Integrand Float) (a b : Float) (n : Nat) :
    Method → Except (RuleError Float) (Option Float) × Method
  | fixed r => (r.errorBound f a b n, fixed r)
  | monteCarlo s => withSampler (s.errorBound f a b n)

/-- The points a rule has sampled; a rule on fixed abscissae has none. -/
def samples (f : Integrand Float) (a b : Float) (n : Nat) :
    Method → Except (RuleError Float) (List Point) × Method
  | fixed r => (.ok [], fixed r)
  | monteCarlo s => withSampler (s.samples f a b n)

end Method

/-! ## Registries -/

/-- The rules that may be asked for. -/
structure Registry where
  hasFixed : FixedRule → Bool
  sampler : Option Sampler

namespace Registry

def empty : Registry :=
  ⟨fun _ => false, none⟩

def complete (seed : UInt64) : Registry :=
  ⟨fun _ => true, some (.ofSeed seed)⟩

/-- Takes the place of the method that was there for the same rule. -/
def insert (r : Registry) : Method → Registry
  | .fixed rule => { r with hasFixed := fun rule' => rule' = rule || r.hasFixed rule' }
  | .monteCarlo s => { r with sampler := some s }

def get? (r : Registry) : Rule → Option Method
  | .fixed rule => if r.hasFixed rule then some (.fixed rule) else none
  | .monteCarlo => r.sampler.map .monteCarlo

def rules (r : Registry) : List Rule :=
  Rule.all.filter fun rule => (r.get? rule).isSome

end Registry

end Quadrature
