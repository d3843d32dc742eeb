import LoopDiff.Tape.Sweep
import LoopDiff.Dual
import LoopDiff.Sparsity

/-!
# LoopDiff.Tape.Derivatives

Selected first and second derivatives of a tape.

First derivatives are taken column by column: one forward sweep over dual
numbers gives the derivatives of all outputs by one input.  Second
derivatives are taken column by column too: a forward and a reverse sweep
over dual numbers give, as the tangents of the input adjoints, one column
of the Hessian of the weighted outputs.

Columns are visited in ascending order, each once.
-/

namespace LoopDiff

open Constants

variable {m : Type → Type} {F T : Type} [Monad m] [MonadExceptOf Failure m] [Scalar F]
  [Constants F T] [Arith m T]

/-- A map from pairs, visited in ascending order. -/
abbrev PairMap (T : Type) := Std.TreeMap (Nat × Nat) T

namespace Tape

/-- The inputs as dual numbers, with input `j` as the variable of
differentiation. -/
def seedInput (inputs : List T) (j : Nat) : m (List (Dual T)) :=
  if j < inputs.length then
    pure (inputs.zipIdx.map fun (x, i) => if i = j then Dual.seed x else Dual.constant x)
  else throw (.crash none)

/-- The indices that occur in some of the sets. -/
def columnsOf (rows : List IndexSet) : IndexSet :=
  rows.foldl (fun columns row => columns.insertMany row.toList) ∅

/-- The rows of each column of some pairs, ascending. -/
def rowsByColumn (pairs : PairSet) : List (Nat × List Nat) :=
  let rows : Std.TreeMap Nat (List Nat) :=
    pairs.toList.foldr (fun (i, j) rows => rows.insert j (i :: rows.getD j [])) ∅
  rows.toList

variable (t : Tape F)

/-- The derivatives of output `i` by the inputs in the `i`-th set. -/
def jacobianEntries (inputs : List T) (rows : List IndexSet) : m (PairMap T) := do
  t.checkOutputs rows.length
  (columnsOf rows).toList.foldlM (fun entries j => do
    let values ← t.forwardSweep (← seedInput inputs j)
    (rows.zip t.outputs).zipIdx.foldlM (fun entries ((row, o), i) => do
      if row.contains j then
        let dual : Dual T ← fetch values o
        return entries.insert (i, j) dual.eps
      else return entries) entries) ∅

/-- The second derivatives at the given pairs of inputs of the outputs
weighted with `weights`. -/
def hessianEntries (inputs weights : List T) (pairs : PairSet) : m (PairMap T) := do
  t.checkInputs inputs.length
  t.checkOutputs weights.length
  (rowsByColumn pairs).foldlM (fun entries (j, rows) => do
    let values ← t.forwardSweep (← seedInput inputs j)
    let adjoints ← t.reverseSweep values (weights.map Dual.constant)
    rows.foldlM (fun entries i => do
      let dual : Dual T ← fetch adjoints i
      return entries.insert (i, j) dual.eps) entries) ∅

/-! ## Dense matrices of plain numbers -/

/-- The matrix with the given entries and zeros elsewhere. -/
def dense (rows cols : Nat) (entries : PairMap F) : List (List F) :=
  (List.range rows).map fun i =>
    (List.range cols).map fun j => entries.getD (i, j) Scalar.zero

/-- All first derivatives. -/
def jacobian (inputs : List F) : Except Failure (List (List F)) := do
  let all : IndexSet := Std.TreeSet.ofList (List.range t.inputCount)
  let entries ← t.jacobianEntries inputs (List.replicate t.outputCount all)
  return dense t.outputCount t.inputCount entries

/-- All second derivatives of the weighted outputs. -/
def hessian (inputs weights : List F) : Except Failure (List (List F)) := do
  let n := t.inputCount
  let all : PairSet := Std.TreeSet.ofList
    ((List.range n).flatMap fun i => (List.range n).map fun j => (i, j))
  return dense n n (← t.hessianEntries inputs weights all)

end Tape

end LoopDiff
