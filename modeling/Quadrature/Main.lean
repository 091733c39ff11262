import Quadrature.CommandLine.Call
import Std.Time.DateTime.Timestamp

/-!
# The program

Takes the arguments, the file they name, the time and some chance from its
surroundings, and writes the outcome of the call.
-/

namespace Quadrature

def now : IO Instant := do
  let t := (← Std.Time.Timestamp.now).toNanosecondsSinceUnixEpoch.val
  return ⟨t / Instant.billion, (t % Instant.billion).toNat⟩

/-- A number of `count` random bytes. -/
def chance (count : USize) : IO Nat := do
  return (← IO.getRandomBytes count).toList.foldl (fun n byte => 256 * n + byte.toNat) 0

/-- What a file holds; nothing if it cannot be read. -/
def content? (path : String) : IO (Option String) := do
  try return some (← IO.FS.readFile path) catch _ => return none

def report (o : CommandLine.Outcome) : IO UInt32 := do
  IO.print o.stdout
  IO.eprint o.stderr
  return o.code.toUInt32

end Quadrature

open Quadrature in
def main (args : List String) : IO UInt32 := do
  match CommandLine.Call.ofArguments args with
  | .error exit => report exit.outcome
  | .ok call =>
    let content ← match call.config with
      | some path => content? path
      | none => pure none
    let stamp := ⟨.random (.ofNat 128 (← chance 16)), ← now⟩
    report (call.outcome content (.ofNat (← chance 8)) stamp)
