import LoopDiff.Model.Loop

/-!
# LoopDiff.Model.Tables

The Hessian pattern of a loop, sorted by what its inputs read.

The pattern consists of pairs of tape inputs.  What an input reads changes
from one iteration to the next, and several inputs may read the same
independent at some iterations only, so one pass over the pairs and the
iterations puts each pair in the table for the kinds of its two inputs: under
the independents (or the temporary and the independent) that they read, in
the set of the iteration.

Of the pairs with temporaries only those of a temporary and an indexed input
have a table.  The pattern is symmetric, so these are there with their sides
swapped too, and the rest is the same at every iteration.
-/

namespace LoopDiff

open Std

/-! ## Tables -/

/-- Pairs of tape inputs per iteration, by what the two inputs read. -/
abbrev PairTable := TreeMap (Nat × Nat) (Array PairSet)

namespace PairTable

/-- Adds a pair at an iteration.  The first pair under a key makes room for
all iterations. -/
def add (table : PairTable) (key : Nat × Nat) (iterations iteration : Nat)
    (pair : Nat × Nat) : PairTable :=
  table.insert key ((table.getD key (.replicate iterations ∅)).modify iteration fun pairs =>
    pairs.insert pair)

/-- The pairs under a key, for every iteration; no sets at all if there is
nothing under the key. -/
def lookup (table : PairTable) (key : Nat × Nat) : List PairSet :=
  (table.getD key #[]).toList

end PairTable

/-- The tables, named by the inputs of their pairs. -/
inductive TableKind where
  | independents (indexed₁ indexed₂ : Bool)
  | temporaryIndexed
deriving DecidableEq, Repr

/-- The pattern of a loop with its tables. -/
structure HessianTables where
  sparsity : PairSet
  indexedIndexed : PairTable := ∅
  indexedNonIndexed : PairTable := ∅
  nonIndexedIndexed : PairTable := ∅
  nonIndexedNonIndexed : PairTable := ∅
  temporaryIndexed : PairTable := ∅

namespace HessianTables

variable (tables : HessianTables)

def table : TableKind → PairTable
  | .independents true true => tables.indexedIndexed
  | .independents true false => tables.indexedNonIndexed
  | .independents false true => tables.nonIndexedIndexed
  | .independents false false => tables.nonIndexedNonIndexed
  | .temporaryIndexed => tables.temporaryIndexed

/-- Replaces a table. -/
def setTable : TableKind → PairTable → HessianTables
  | .independents true true, t => { tables with indexedIndexed := t }
  | .independents true false, t => { tables with indexedNonIndexed := t }
  | .independents false true, t => { tables with nonIndexedIndexed := t }
  | .independents false false, t => { tables with nonIndexedNonIndexed := t }
  | .temporaryIndexed, t => { tables with temporaryIndexed := t }

end HessianTables

namespace Loop

variable {F : Type} (l : Loop F)

/-! ## Classification -/

/-- The table and the key of a pair of inputs at an iteration, if it is in a
table. -/
def placeOf? (p q iteration : Nat) : Option (TableKind × Nat × Nat) :=
  if l.isTemporary p then
    match l.temporaryOf? p, l.isIndexed q with
    | some k, true => (l.independentAt? q iteration).map fun j => (.temporaryIndexed, k, j)
    | _, _ => none
  else if l.isTemporary q then none
  else
    match l.independentAt? p iteration, l.independentAt? q iteration with
    | some j₁, some j₂ => some (.independents (l.isIndexed p) (l.isIndexed q), j₁, j₂)
    | _, _ => none

/-- Puts a pair of inputs in its table, at one iteration. -/
def classifyAt (p q : Nat) (tables : HessianTables) (iteration : Nat) : HessianTables :=
  match l.placeOf? p q iteration with
  | some (kind, key) =>
      tables.setTable kind ((tables.table kind).add key l.iterations iteration (p, q))
  | none => tables

/-- Puts a pair of inputs in its tables, at all iterations. -/
def classify (tables : HessianTables) (pair : Nat × Nat) : HessianTables :=
  (List.range l.iterations).foldl (l.classifyAt pair.1 pair.2) tables

/-- The tables of a pattern. -/
def hessianTables (sparsity : PairSet) : HessianTables :=
  sparsity.toList.foldl l.classify { sparsity }

/-! ## Queries -/

/-- For every iteration the pairs of inputs that read the independents `j₁`
and `j₂` there, the first input and the second from the given groups. -/
def independentPairs (sparsity : PairSet) (indexed₁ indexed₂ : Bool) (j₁ j₂ : Nat) :
    List PairSet :=
  ((l.hessianTables sparsity).table (.independents indexed₁ indexed₂)).lookup (j₁, j₂)

/-- For every iteration the pairs of a temporary input that reads the
temporary `k` and an indexed input that reads the independent `j`. -/
def temporaryPairs (sparsity : PairSet) (k j : Nat) : List PairSet :=
  ((l.hessianTables sparsity).table .temporaryIndexed).lookup (k, j)

end Loop

end LoopDiff
