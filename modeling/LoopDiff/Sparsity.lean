import LoopDiff.Failure
import Std.Data.TreeSet

/-!
# LoopDiff.Sparsity

Sets of indices and pairs, and the layout of compressed matrices.

A compressed matrix is an array of values together with their positions:
value `k` stands at row `rows[k]` and column `cols[k]`.  The positions
may come in any order and may be more, or fewer, than a checked layout
allows; a loaded model checks them before use.
-/

namespace LoopDiff

open Std

/-- Pairs are ordered by their first component, then by their second. -/
instance pairOrd {α β : Type} [Ord α] [Ord β] : Ord (α × β) := lexOrd

/-- A set of indices, visited in ascending order. -/
abbrev IndexSet := TreeSet Nat

/-- A set of pairs, visited in ascending order. -/
abbrev PairSet := TreeSet (Nat × Nat)

/-- The first element that occurs earlier in the list, or in `seen`. -/
def firstRepeat? {α : Type} [Ord α] : List α → (seen : TreeSet α) → Option α
  | [], _ => none
  | x :: xs, seen => if seen.contains x then some x else firstRepeat? xs (seen.insert x)

/-- The positions of a compressed matrix. -/
structure Sparsity where
  rowCount : Nat
  colCount : Nat
  rows : List Nat
  cols : List Nat
deriving DecidableEq, Repr

namespace Sparsity

/-- Positions in the given order. -/
def ofEntries (rowCount colCount : Nat) (entries : List (Nat × Nat)) : Sparsity where
  rowCount := rowCount
  colCount := colCount
  rows := entries.map Prod.fst
  cols := entries.map Prod.snd

/-- The positions of the columns of each row, row by row. -/
def ofSets (colCount : Nat) (sets : List IndexSet) : Sparsity :=
  ofEntries sets.length colCount
    (sets.zipIdx.flatMap fun (cols, row) => cols.toList.map fun col => (row, col))

/-- The positions as pairs. -/
def entries (s : Sparsity) : List (Nat × Nat) := s.rows.zip s.cols

/-- Number of values. -/
def size (s : Sparsity) : Nat := s.rows.length

def isEmpty (s : Sparsity) : Bool := s.rows.isEmpty

/-- Where in the array the value at a position is kept. -/
def find? (s : Sparsity) (row col : Nat) : Option Nat :=
  s.entries.findIdx? (· == (row, col))

def contains (s : Sparsity) (row col : Nat) : Bool := (s.find? row col).isSome

/-- The column set of every row.  A position below the last row breaks the
layout. -/
def toSets (s : Sparsity) : Except Failure (List IndexSet) := do
  checkExtent 24 s.rowCount
  if s.entries.all fun e => e.1 < s.rowCount then
    return (s.entries.foldl (fun sets (row, col) => sets.modify row fun cols => cols.insert col)
      (Array.replicate s.rowCount (∅ : IndexSet))).toList
  else throw (.crash none)

@[simp]
theorem entries_ofEntries (r c : Nat) (es : List (Nat × Nat)) :
    (ofEntries r c es).entries = es := by
  show (es.map Prod.fst).zip (es.map Prod.snd) = es
  induction es with
  | nil => rfl
  | cons e es ih => simp [ih]

end Sparsity

end LoopDiff
