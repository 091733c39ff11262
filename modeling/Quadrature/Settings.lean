import Quadrature.Analysis.Record

/-!
# Settings

What a configuration says about every calculation.
-/

namespace Quadrature

structure Settings where
  /-- The panel counts of the convergence sweep. -/
  range : CountRange
  /-- The seed of Monte Carlo; without one every engine draws anew. -/
  seed : Option UInt64
  /-- The places of the numbers in a report. -/
  digits : Nat
  deriving DecidableEq

namespace Settings

def default : Settings :=
  ⟨.default, none, 8⟩

def toDocument (s : Settings) : Document :=
  .ofMembers [
    ("convergence", s.range.toDocument),
    ("monte_carlo_seed", .ofOption (fun seed => .ofNat seed.toNat) s.seed),
    ("report_digits", .ofNat s.digits)]

def seedOfDocument? (d : Document) : Option UInt64 :=
  (d.toNat? UInt64.size).map UInt64.ofNat

/-- Fields that are absent are those of the default settings. -/
def ofDocument? (d : Document) : Option Settings := do
  let r ← Record.ofDocument? ["convergence", "monte_carlo_seed", "report_digits"] d
  return {
    range := ← r.withDefault "convergence" default.range CountRange.ofDocument?
    seed := ← r.withDefault "monte_carlo_seed" none (Document.toOption? seedOfDocument?)
    digits := ← r.withDefault "report_digits" default.digits (Document.toNat? UInt32.size) }

end Settings

end Quadrature
