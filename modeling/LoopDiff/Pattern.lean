import LoopDiff.Failure
import Std.Data.TreeMap

/-!
# LoopDiff.Pattern

Index patterns: rules that give, for every iteration of a loop, an index
to read from or to write to.

A pattern is a constant, a linear rule, or an explicit table.  A table
may leave iterations out; those have no index.  `detect?` finds the
simplest pattern behind a table: a constant if all indices agree, a
linear rule if one fits every entry, the table itself otherwise.

Linear rules are computed in signed 64-bit words.  An index at or above
`2 ^ 63` is read as the negative number with the same bits; an iteration
whose index leaves the word range has no index.
-/

namespace LoopDiff

open Std

/-! ## Signed words -/

namespace Word

/-- The number of 64-bit words. -/
def count : Nat := 0x10000000000000000

/-- The signed reading of a 64-bit word. -/
def signed (n : Nat) : Int := Int.bmod n count

/-- The word with the bits of a signed number. -/
def unsigned (z : Int) : Nat := (z % count).toNat

/-- A result that stays in the signed range. -/
def checked (z : Int) : Option Int :=
  if -0x8000000000000000 ≤ z ∧ z < 0x8000000000000000 then some z else none

end Word

/-- A rule from iterations to indices. -/
inductive Pattern where
  /-- The same index at every iteration. -/
  | constant (index : Nat)
  /-- `slope * iteration + offset`. -/
  | linear (slope offset : Int)
  /-- The listed iterations only. -/
  | table (entries : TreeMap Nat Nat)
deriving BEq

namespace Pattern

/-- Value of a linear rule in signed words. -/
def linearAt (slope offset iteration : Int) : Option Int := do
  let product ← Word.checked (slope * iteration)
  Word.checked (product + offset)

/-- The index at an iteration, if the pattern has one there. -/
def eval (p : Pattern) (iteration : Nat) : Option Nat :=
  match p with
  | constant index => some index
  | linear slope offset => do
    let v ← linearAt slope offset (Word.signed iteration)
    if 0 ≤ v then some v.toNat else none
  | table entries => entries[iteration]?

/-- Whether two patterns agree at every iteration below `n`. -/
def equivalent (p q : Pattern) (n : Nat) : Bool :=
  p == q || n.all fun i _ => p.eval i == q.eval i

def isConstant : Pattern → Bool
  | constant _ => true
  | _ => false

def isLinear : Pattern → Bool
  | linear _ _ => true
  | _ => false

/-! ## Detection -/

/-- Whether a linear rule reproduces every listed entry.  `none` when a
value that has to be looked at leaves the word range. -/
def fits? (slope offset : Int) : List (Int × Int) → Option Bool
  | [] => some true
  | (iteration, index) :: rest => do
    let v ← linearAt slope offset iteration
    if v = index then fits? slope offset rest else some false

/-- The linear rule through two entries, if its slope is an integer. -/
def through? (p q : Int × Int) : Option (Option (Int × Int)) := do
  let rise ← Word.checked (q.2 - p.2)
  let run ← Word.checked (q.1 - p.1)
  if rise.tmod run = 0 then
    let slope ← Word.checked (rise.tdiv run)
    let back ← Word.checked (slope * p.1)
    let offset ← Word.checked (p.2 - back)
    some (some (slope, offset))
  else some none

/-- The simplest pattern behind a table.  `none` when the arithmetic
leaves the word range. -/
def detect? (entries : TreeMap Nat Nat) : Option Pattern :=
  match entries.toList.map fun (i, v) => (Word.signed i, Word.signed v) with
  | [] => some (table ∅)
  | first :: rest =>
    if rest.all fun e => e.2 == first.2 then some (constant (Word.unsigned first.2))
    else match rest with
    | [] => some (table entries)
    | second :: _ => do
      match ← through? first second with
      | none => some (table entries)
      | some (slope, offset) =>
        if ← fits? slope offset (first :: rest) then some (linear slope offset)
        else some (table entries)

/-- The table that lists an index for each of the iterations `0, 1, …`. -/
def denseTable (indices : List Nat) : TreeMap Nat Nat :=
  TreeMap.ofList (indices.zipIdx.map fun (v, i) => (i, v))

/-- The simplest pattern behind a list of indices, one per iteration. -/
def detectDense? (indices : List Nat) : Option Pattern :=
  detect? (denseTable indices)

end Pattern

end LoopDiff
