import Quadrature.Rule.Method

/-!
# Convergence

What the rules give for a range of panel counts. Every rule is integrated anew at
every count; one that fails there has no entry at that count.
-/

namespace Quadrature

/-- The counts from `start` in strides of `step` up to `limit`; a start or a step
of zero stands for one. -/
structure CountRange where
  start : Nat
  limit : Nat
  step : Nat
  deriving DecidableEq

namespace CountRange

def default : CountRange :=
  ⟨2, 50, 2⟩

def first? (r : CountRange) : Option Nat :=
  if max r.start 1 ≤ r.limit then some (max r.start 1) else none

/-- The count after `n`. The stride is held against what is left up to the limit, so no
number beyond the limit is formed. -/
def next? (r : CountRange) (n : Nat) : Option Nat :=
  if max r.step 1 ≤ r.limit - n then some (n + max r.step 1) else none

/-- The counts from one of them on. -/
def countsFrom (r : CountRange) : Option Nat → List Nat
  | none => []
  | some n => n :: r.countsFrom (r.next? n)
termination_by n? => n?.elim 0 (r.limit - · + 1)
decreasing_by
  have hpos : 1 ≤ max r.step 1 := Nat.le_max_right _ _
  rw [next?]
  split
  · simp only [Option.elim]
    omega
  · exact Nat.succ_pos _

def counts (r : CountRange) : List Nat :=
  r.countsFrom r.first?

end CountRange

/-! ## Tables keyed by rule

At most one entry for each rule. The entries are listed in the order of the rules,
whatever the order of their insertion.
-/

structure RuleTable (β : Type) where
  get? : Rule → Option β

namespace RuleTable

variable {β : Type}

def empty : RuleTable β :=
  ⟨fun _ => none⟩

def insert (t : RuleTable β) (rule : Rule) (value : β) : RuleTable β :=
  ⟨fun r => if r = rule then some value else t.get? r⟩

def ofList (entries : List (Rule × β)) : RuleTable β :=
  entries.foldl (fun t e => t.insert e.1 e.2) empty

def toList (t : RuleTable β) : List (Rule × β) :=
  Rule.all.filterMap fun rule => (t.get? rule).map (rule, ·)

end RuleTable

/-! ## Sweeps -/

structure ConvergencePoint where
  n : Nat
  values : RuleTable Float

namespace ConvergencePoint

def record (t : RuleTable Float) (run : Except (RuleError Float) Float × Method) :
    RuleTable Float :=
  match run.1 with
  | .ok value => t.insert run.2.rule value
  | .error _ => t

/-- One pass of the methods over the same interval and count. -/
def measure (f : Integrand Float) (a b : Float) (n : Nat) (ms : List Method) :
    ConvergencePoint × List Method :=
  let runs := ms.map (·.integrate f a b n)
  (⟨n, runs.foldl record .empty⟩, runs.map (·.2))

end ConvergencePoint

/-- A pass for every count, each with the methods as the one before left them. -/
def sweep (f : Integrand Float) (a b : Float) :
    List Nat → List Method → List ConvergencePoint × List Method
  | [], ms => ([], ms)
  | n :: ns, ms =>
    let (point, ms) := ConvergencePoint.measure f a b n ms
    let (points, ms) := sweep f a b ns ms
    (point :: points, ms)

end Quadrature
