import LoopDiff.Model.Basic

/-!
# LoopDiff.Model.Dependency

The sparsity of a whole model.

A loop tape is analysed once.  At each iteration, an input of the tape
stands for the independent it reads, or for the independents that its
temporary depends on; the entries of the tape pattern spread out to the
pairs of what the two sides stand for.  To the Hessian, a temporary that a
loop depends on also brings its own second derivatives.
-/

namespace LoopDiff

open Std

variable {F : Type}

namespace Model

/-- The independents behind a tape input at an iteration. -/
def behind (l : Loop F) (temporaries : List IndexSet) (input iteration : Nat) :
    Except Failure (List Nat) :=
  match l.temporaryOf? input with
  | some k => return (temporaries.getD k ∅).toList
  | none => return (← l.independentOf input iteration).toList

variable (m : Model F)

/-- The independents that each temporary depends on. -/
def temporaryDependencies : Except Failure (List IndexSet) :=
  match m.outer? with
  | some o => o.temporaryDependencies
  | none => return []

/-- Adds independents to the row of a dependent. -/
def extendRow (rows : Array IndexSet) (dependent : Nat) (independents : List Nat) :
    Array IndexSet :=
  rows.modify dependent fun row => row.insertMany independents

/-- The independents that each dependent depends on. -/
def jacobianSparsity : Except Failure (List IndexSet) := do
  let temporaries ← m.temporaryDependencies
  let rows := Array.replicate m.range (∅ : IndexSet)
  let rows ← match m.outer? with
    | some o => do
      let sparsity ← o.jacobianSparsity
      pure ((o.dependents.zip sparsity).foldl (fun rows (d, row) =>
        extendRow rows d row.toList) rows)
    | none => pure rows
  let rows ← m.loops.foldlM (fun rows l => do
    let sparsity ← l.jacobianSparsity
    (l.dependents.zip sparsity).foldlM (fun rows (dependents, inputs) =>
      dependents.toList.zipIdx.foldlM (fun rows (d, i) => do
        return extendRow rows d
          (← inputs.toList.mapM fun input => behind l temporaries input i).flatten)
        rows) rows) rows
  return rows.toList

/-- The pairs that meet in the tape of a loop, iteration by iteration. -/
def metPairs (temporaries : List IndexSet) (l : Loop F) : Except Failure (List (Nat × Nat)) := do
  let sparsity ← l.hessianSparsity
  let pairs ← sparsity.toList.mapM fun (p, q) =>
    (List.range l.iterations).mapM fun i => do
      let left ← behind l temporaries p i
      let right ← behind l temporaries q i
      return left.flatMap fun a => right.flatMap fun b => [(a, b), (b, a)]
  return pairs.flatten.flatten

/-- The pairs at which a temporary that a loop depends on has second
derivatives. -/
def metInTemporaries (l : Loop F) : Except Failure (List (Nat × Nat)) :=
  match m.outer? with
  | some o => do
    let used ← l.usedInputs
    let pairs ← (l.temporaryInputs.filter fun (input, _) => used.contains input).mapM
      fun (_, k) => o.temporaryHessianSparsity k
    return pairs.flatMap Std.TreeSet.toList
  | none => return []

/-- The pairs of independents at which the weighted Hessian can be nonzero.
With a pair comes the swapped pair. -/
def hessianSparsity : Except Failure PairSet := do
  let temporaries ← m.temporaryDependencies
  let outer ← match m.outer? with
    | some o => o.hessianSparsity
    | none => pure ∅
  m.loops.foldlM (fun pairs l => do
    let pairs := pairs.insertMany (← metPairs temporaries l)
    return pairs.insertMany (← m.metInTemporaries l)) outer

/-- The layout of the Jacobian, row by row. -/
def jacobianLayout : Except Failure Sparsity := do
  return Sparsity.ofSets m.domain (← m.jacobianSparsity)

/-- The layout of the lower triangle of the Hessian. -/
def hessianLayout : Except Failure Sparsity := do
  let pairs ← m.hessianSparsity
  return Sparsity.ofEntries m.domain m.domain (pairs.toList.filter fun (r, c) => c ≤ r)

end Model

end LoopDiff
