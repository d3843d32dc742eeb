import LoopDiff.Graph.Evaluation
import LoopDiff.Sparsity

/-!
# LoopDiff.Loop.Ranges

Conditions that select the iterations of one branch.

The branches of a conditional are tested in order, so the condition of a
branch may also cover iterations that an earlier branch has taken.
`branchRanges` uses this to merge: new and taken iterations that follow
one another form one run, and a run with more than one new iteration
becomes a single range.  Such a range starts at zero if the run does, and
is left open if the run reaches the last iteration.
-/

namespace LoopDiff

open Std

/-- The iterations of a branch and those already taken, ascending; new
iterations are marked. -/
def markedIterations (iterations taken : IndexSet) : List (Nat × Bool) :=
  (iterations.toList.foldl (fun all i => all.insert i true)
    (TreeMap.ofList (taken.toList.map fun i => (i, false)))).toList

/-- Splits an ascending list into runs of consecutive iterations. -/
def consecutiveRuns (all : List (Nat × Bool)) : List (List (Nat × Bool)) :=
  all.splitBy fun x y => y.1 == x.1 + 1

/-- The range that selects the new iterations of one run, if it has any. -/
def runRange (lastIteration : Nat) (run : List (Nat × Bool)) : List Nat :=
  let new := (run.filter Prod.snd).map Prod.fst
  match new.head?, new.getLast? with
  | some lo, some hi =>
    if lo = hi then [lo, hi]
    else
      [if run.head?.map Prod.fst = some 0 then 0 else lo,
        if run.getLast?.map Prod.fst = some lastIteration then openEnd else hi]
  | _, _ => []

/-- Inclusive ranges `lo, hi, …` that select `iterations` once the `taken`
ones are out of play. -/
def branchRanges (iterations taken : IndexSet) (lastIteration : Nat) : List Nat :=
  (consecutiveRuns (markedIterations iterations taken)).flatMap (runRange lastIteration)

end LoopDiff
