import LoopDiff.Sparsity
import Std.Data.TreeMap

/-!
# LoopDiff.Loop.Claim

Claims of a loop value on output locations.

A value of a loop body is written, at each iteration, to the location
that claimed it there, and as many times as it was claimed.  A second
location at the same iteration is a conflict: one value is written to one
place.
-/

namespace LoopDiff

open Std

/-- A use of a value at one iteration: the location it is written to, the
tape row it stems from, and the number of times it is written. -/
structure Claim where
  location : Nat
  row : Nat
  count : Nat
deriving DecidableEq, Repr

namespace Claim

/-- A first use. -/
def once (location row : Nat) : Claim := ⟨location, row, 1⟩

/-- One more use, at the same location. -/
def again (c : Claim) (location : Nat) (pair : Nat × Nat) (iteration : Nat) :
    Except Failure Claim :=
  if location = c.location then .ok { c with count := c.count + 1 }
  else refuse (.conflictingClaims pair iteration c.location location)

end Claim

/-- The claims on one value, by iteration. -/
abbrev Claims := TreeMap Nat Claim

namespace Claims

/-- Adds a use at an iteration. -/
def add (claims : Claims) (iteration location : Nat) (pair : Nat × Nat) :
    Except Failure Claims := do
  let c ← match claims[iteration]? with
    | some c => c.again location pair iteration
    | none => pure (Claim.once location pair.1)
  return claims.insert iteration c

/-- Adds a use at each of the iterations below `n`. -/
def addAll (claims : Claims) (n location : Nat) (pair : Nat × Nat) : Except Failure Claims :=
  (List.range n).foldlM (fun claims i => claims.add i location pair) claims

end Claims

end LoopDiff
