import LoopDiff.Model.Outer
import LoopDiff.Pattern

/-!
# LoopDiff.Model.Loop

The loops of a model.

A loop is a tape for a single iteration, run a number of times with other
indices each time.  Tape output `i` is equation `i`; at each iteration it
computes the dependent that `dependents[i]` lists there.  The tape inputs
come in three groups:

1. indexed inputs: `indexed[j]` lists the independent read at each
   iteration;
2. non-indexed inputs: the same independent at every iteration;
3. temporaries of the outer part.

Several inputs may read the same independent.  The searches by
independent that allow for one answer only (`nonIndexed?`, `temporary?`)
give the last input that reads it.
-/

namespace LoopDiff

open Std

/-- A tape that is run once per iteration. -/
structure Loop (F : Type) where
  id : Nat
  tape : Tape F
  iterations : Nat
  dependents : List (Array Nat)
  indexed : List (Array Nat)
  nonIndexed : List Nat
  temporaries : List Nat
  dependentPatterns : List Pattern
  indexedPatterns : List Pattern

/-- Where a dependent is computed. -/
structure LoopPosition where
  equation : Nat
  iteration : Nat
deriving DecidableEq, Repr

/-- The position of the last occurrence of an element. -/
def lastIdx? (x : Nat) (xs : List Nat) : Option Nat :=
  xs.zipIdx.reverse.findSome? fun (y, i) => if y == x then some i else none

namespace Loop

variable {F : Type}

/-- The loop with the given tape and indices, if the sizes agree and no
dependent is computed twice. -/
def make (id : Nat) (tape : Tape F) (iterations : Nat) (dependents indexed : List (Array Nat))
    (nonIndexed temporaries : List Nat) : Except Failure (Loop F) := do
  if iterations = 0 then refuse (.invalidLoop (.noIterations id))
  checkSize .loopTapeInput (indexed.length + nonIndexed.length + temporaries.length)
    tape.inputCount
  checkSize .loopTapeOutput dependents.length tape.outputCount
  (dependents ++ indexed).forM fun row => checkSize .iterationIndices iterations row.size
  match firstRepeat? (dependents.flatMap Array.toList) ∅ with
  | some d => refuse (.invalidLoop (.repeatedDependent d id))
  | none => pure ()
  let dependentPatterns ← dependents.mapM fun row => present (Pattern.detectDense? row.toList)
  let indexedPatterns ← indexed.mapM fun row => present (Pattern.detectDense? row.toList)
  return { id, tape, iterations, dependents, indexed, nonIndexed, temporaries,
           dependentPatterns, indexedPatterns }

variable (l : Loop F)

/-! ## Tape inputs -/

/-- The first input that is a temporary. -/
def temporaryOffset : Nat := l.indexed.length + l.nonIndexed.length

def isIndexed (input : Nat) : Bool := input < l.indexed.length

def isTemporary (input : Nat) : Bool := l.temporaryOffset ≤ input && input < l.tape.inputCount

/-- The temporary that an input reads. -/
def temporaryOf? (input : Nat) : Option Nat :=
  if l.temporaryOffset ≤ input then l.temporaries[input - l.temporaryOffset]? else none

/-- The temporary inputs with the temporaries they read. -/
def temporaryInputs : List (Nat × Nat) :=
  l.temporaries.zipIdx.map fun (k, i) => (l.temporaryOffset + i, k)

/-- The independent that an input reads at an iteration, if it reads one. -/
def independentAt? (input iteration : Nat) : Option Nat :=
  match l.indexed[input]? with
  | some row => row[iteration]?
  | none => l.nonIndexed[input - l.indexed.length]?

/-- The independent that an input reads at an iteration of the loop; none if
the input is not an independent. -/
def independentOf (input iteration : Nat) : Except Failure (Option Nat) :=
  match l.independentAt? input iteration with
  | some j => return some j
  | none => if l.isIndexed input then throw (.crash none) else return none

/-! ## Searches -/

/-- The equation and iteration that compute each dependent. -/
def positions : TreeMap Nat LoopPosition :=
  TreeMap.ofList (l.dependents.zipIdx.flatMap fun (row, equation) =>
    row.toList.zipIdx.map fun (dependent, iteration) =>
      (dependent, LoopPosition.mk equation iteration))

/-- The equation and iteration that compute a dependent. -/
def dependent? (dependent : Nat) : Option LoopPosition := l.positions[dependent]?

/-- The non-indexed input that reads an independent. -/
def nonIndexed? (independent : Nat) : Option Nat :=
  (lastIdx? independent l.nonIndexed).map (l.indexed.length + ·)

/-- The input that reads a temporary. -/
def temporary? (temporary : Nat) : Option Nat :=
  (lastIdx? temporary l.temporaries).map (l.temporaryOffset + ·)

/-- The indexed inputs that read an independent at an iteration. -/
def indexedAt (iteration independent : Nat) : List Nat :=
  (l.indexed.zipIdx.filter fun (row, _) => row[iteration]? == some independent).map Prod.snd

/-- The indexed inputs that read an independent, for every iteration, if
any does at all. -/
def indexedAll? (independent : Nat) : Option (List (List Nat)) :=
  if l.indexed.any fun row => row.contains independent then
    some ((List.range l.iterations).map fun i => l.indexedAt i independent)
  else none

/-! ## Sparsity -/

/-- The inputs that each equation depends on. -/
def jacobianSparsity : Except Failure (List IndexSet) := l.tape.jacobianSparsity

/-- The inputs that some equation depends on. -/
def usedInputs : Except Failure IndexSet := do return Tape.columnsOf (← l.jacobianSparsity)

/-- The pairs of inputs at which the second derivative of the sum of the
equations can be nonzero. -/
def hessianSparsity : Except Failure PairSet := l.tape.hessianSparsity

end Loop

end LoopDiff
