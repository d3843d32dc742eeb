import LoopDiff.Model.Tables

/-!
# LoopDiff.Model.Basic

Models: a number of dependents as functions of a number of independents,
split into an outer part and loops.

Every dependent is computed exactly once, by the outer part or by one
iteration of one loop.  `Model.make` checks this, and checks that loops
read only independents and temporaries that exist.

`run` is the plain meaning of a model: it runs the tape of every loop once
per iteration.  It runs on numbers (`evaluate`), and on dual numbers for
the derivatives of the dependents.
-/

namespace LoopDiff

/-- A model of `range` dependents over `domain` independents. -/
structure Model (F : Type) where
  name : String
  domain : Nat
  range : Nat
  outer? : Option (Outer F)
  loops : List (Loop F)

namespace Model

variable {F : Type}

/-! ## Validation -/

/-- Adds dependents to those computed so far, none of them twice. -/
def cover (range : Nat) (covered : IndexSet) (dependents : List Nat) : Except Failure IndexSet :=
  dependents.foldlM (fun covered d =>
    if range ≤ d then refuse (.invalidModel (.outsideRange d range))
    else if covered.contains d then refuse (.invalidModel (.computedTwice d))
    else .ok (covered.insert d)) covered

/-- The first number from `d` on, below `range`, that is not in a set. -/
def firstMissing? (range : Nat) (covered : IndexSet) (d : Nat) : Option Nat :=
  if d < range then
    if covered.contains d then firstMissing? range covered (d + 1) else some d
  else none
termination_by range - d

/-- Fails unless a loop reads only what the model has. -/
def checkReads (domain temporaryCount : Nat) (l : Loop F) : Except Failure Unit := do
  match (l.indexed.flatMap Array.toList ++ l.nonIndexed).find? (domain ≤ ·) with
  | some j => refuse (.invalidLoop (.outsideDomain l.id j domain))
  | none => pure ()
  match l.temporaries.find? (temporaryCount ≤ ·) with
  | some k => refuse (.invalidLoop (.unknownTemporary l.id k temporaryCount))
  | none => pure ()

/-- Checks the outer part; its dependents are computed. -/
def coverOuter (domain range : Nat) : Option (Outer F) → Except Failure IndexSet
  | none => .ok ∅
  | some o => do
    checkSize .outerTapeInput domain o.tape.inputCount
    cover range ∅ o.dependents

/-- The number of temporaries that the outer part provides. -/
def temporaryCount : Option (Outer F) → Nat
  | none => 0
  | some o => o.temporaryCount

/-- Fails unless the parts of a model compute every dependent once and read
only what there is. -/
def checkParts (name : String) (domain range : Nat) (outer? : Option (Outer F))
    (loops : List (Loop F)) : Except Failure Unit := do
  let covered ← coverOuter domain range outer?
  let covered ← loops.foldlM (fun covered l => do
    let covered ← cover range covered (l.dependents.flatMap Array.toList)
    checkReads domain (temporaryCount outer?) l
    return covered) covered
  match firstMissing? range covered 0 with
  | some d => refuse (.invalidModel (.neverComputed d name))
  | none => return ()

/-- The model with the given parts, if they fit together.  The dependents
that are computed are marked in a table with a place for each of them. -/
def make (name : String) (domain range : Nat) (outer? : Option (Outer F))
    (loops : List (Loop F)) : Except Failure (Model F) := do
  if domain = 0 || range = 0 then
    refuse (.invalidModel (.emptyShape name domain range))
  checkExtent 1 range
  checkParts name domain range outer? loops
  return ⟨name, domain, range, outer?, loops⟩

/-! ## Evaluation -/

variable {μ : Type → Type} {T : Type} [Monad μ] [MonadExceptOf Failure μ] [Scalar F]
  [Constants F T] [Arith μ T]

/-- The inputs of a loop tape at an iteration. -/
def loopInputs (l : Loop F) (x temporaries : Array T) (iteration : Nat) : μ (List T) := do
  let indexed ← l.indexed.mapM fun row => do present x[(← present row[iteration]?)]?
  let nonIndexed ← l.nonIndexed.mapM fun j => present x[j]?
  let temporaries ← l.temporaries.mapM fun k => present temporaries[k]?
  return indexed ++ nonIndexed ++ temporaries

/-- Stores the values of an iteration. -/
def storeIteration (l : Loop F) (iteration : Nat) (values : List T) (y : Array T) : μ (Array T) :=
  (l.dependents.zip values).foldlM (fun y (row, v) => do
    return y.setIfInBounds (← present row[iteration]?) v) y

/-- The dependents that the outer part computes, in place of zeros, and the
temporaries. -/
def outerResults (m : Model F) (x : List T) : μ (Array T × List T) := do
  let zeros := Array.replicate m.range Constants.zero
  match m.outer? with
  | none => return (zeros, [])
  | some o => do
    let z : List T ← o.tape.eval x
    return ((o.dependents.zip z).foldl (fun y (d, v) => y.setIfInBounds d v) zeros,
      z.drop o.dependents.length)

/-- The dependents at `x`, which may be numbers or dual numbers. -/
def run (m : Model F) (x : List T) : μ (List T) := do
  checkSize .independents m.domain x.length
  let (y, temporaries) ← m.outerResults x
  let x := x.toArray
  let temporaries := temporaries.toArray
  let y ← m.loops.foldlM (fun y l =>
    (List.range l.iterations).foldlM (fun y i => do
      let values : List T ← l.tape.eval (← loopInputs l x temporaries i)
      storeIteration l i values y) y) y
  return y.toList

/-- The dependents at numbers. -/
def evaluate (m : Model F) (x : List F) : Except Failure (List F) := m.run x

end Model

end LoopDiff
