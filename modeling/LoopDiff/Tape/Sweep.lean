import LoopDiff.Tape.Basic
import LoopDiff.Derivative

/-!
# LoopDiff.Tape.Sweep

Running a tape forward and backward.

A forward sweep computes the value of every entry in order.  A reverse
sweep starts from a seed for every output and carries the adjoint of each
entry to its operands, from the last entry to the first.

The reverse sweep skips an entry whose adjoint is known to be zero.  On
plain numbers this saves work; on recorded values it keeps whole branches
that contribute nothing out of the graph.
-/

namespace LoopDiff

open Arith Constants

variable {m : Type → Type} {F T : Type} [Monad m] [MonadExceptOf Failure m]

/-- The value at a position. -/
def fetch (values : Array T) (i : Nat) : m T := present values[i]?

namespace Entry

variable [Scalar F] [Constants F T] [Arith m T]

/-- The value of an operand that may be missing. -/
def fetchSecond (values : Array T) : Option Nat → m T
  | some i => fetch values i
  | none => pure zero

/-- The value of the entry that follows `values`. -/
def forward (inputs : Array T) (values : Array T) : Entry F → m T
  | .input => present inputs[values.size]?
  | .const x => pure (ofBase x)
  | .powi arg n => do Arith.powi (← fetch values arg) n
  | .unary op arg second => do
    let x : T ← fetch values arg
    let _ ← fetchSecond (m := m) values second
    Arith.unary op x
  | .binary op left right => do
    let x : T ← fetch values left
    let y ← fetchSecond values right
    Arith.binary op x y

/-- Adds `factor * adjoint` to the adjoint at position `i`. -/
def propagate (adjoints : Array T) (i : Nat) (factor adjoint : T) : m (Array T) := do
  let old ← fetch adjoints i
  let new ← add old (← mul factor adjoint)
  return adjoints.setIfInBounds i new

/-- Carries the adjoint of entry `i` to its operands. -/
def backward (values : Array T) (adjoints : Array T) (i : Nat) (adjoint : T) :
    Entry F → m (Array T)
  | .input | .const _ => pure adjoints
  | .powi arg n => do
    let x ← fetch values arg
    let dx ← Derivative.powi x n
    propagate adjoints arg dx adjoint
  | .unary op arg second => do
    let x ← fetch values arg
    let _ ← fetchSecond (m := m) values second
    let r ← fetch values i
    let dx ← Derivative.unary op x r
    propagate adjoints arg dx adjoint
  | .binary op left right => do
    let x ← fetch values left
    let y ← fetchSecond values right
    let r ← fetch values i
    let (dx, dy) ← Derivative.binary op x y r
    let adjoints ← propagate adjoints left dx adjoint
    match right with
    | some i => propagate adjoints i dy adjoint
    | none => throw (.crash none)

/-- Whether the entry has operands. -/
def isOperation : Entry F → Bool
  | .input | .const _ => false
  | _ => true

/-- One step of a reverse sweep: the adjoint of entry `i` is spent on its
operands. -/
def reverseStep (values : Array T) (adjoints : Array T) (i : Nat) (e : Entry F) :
    m (Array T) := do
  if !e.isOperation then return adjoints
  let adjoint ← fetch adjoints i
  if isZero adjoint then return adjoints
  e.backward values (adjoints.setIfInBounds i zero) i adjoint

end Entry

namespace Tape

variable [Scalar F] [Constants F T] [Arith m T] (t : Tape F)

/-- The value of every entry. -/
def forwardSweep (inputs : List T) : m (Array T) := do
  t.checkInputs inputs.length
  let inputs := inputs.toArray
  t.entries.toList.foldlM (fun values e => do
    return values.push (← e.forward inputs values)) #[]

/-- The outputs among the values of a forward sweep. -/
def outputsOf (values : Array T) : m (List T) := t.outputs.mapM fun o => fetch values o

/-- The outputs at `inputs`. -/
def eval (inputs : List T) : m (List T) := do
  t.outputsOf (← t.forwardSweep inputs)

/-- The adjoints before a reverse sweep: the sum of the seeds of the outputs
at an entry, zero elsewhere. -/
def seedAdjoints (seeds : List T) : m (Array T) :=
  (t.outputs.zip seeds).foldlM (fun adjoints (o, seed) => do
    let new ← add (← fetch adjoints o) seed
    return adjoints.setIfInBounds o new) (Array.replicate t.size zero)

/-- The adjoints after a reverse sweep: those of the inputs and constants,
since the others have been spent. -/
def reverseSweep (values : Array T) (seeds : List T) : m (Array T) := do
  t.checkOutputs seeds.length
  checkSize .tapeValues t.size values.size
  let adjoints ← t.seedAdjoints seeds
  t.entries.toList.zipIdx.reverse.foldlM (fun adjoints (e, i) =>
    e.reverseStep values adjoints i) adjoints

/-- The derivatives by the inputs of the outputs weighted with `weights`. -/
def gradient (inputs weights : List T) : m (List T) := do
  let values ← t.forwardSweep inputs
  let adjoints ← t.reverseSweep values weights
  return adjoints.toList.take t.inputCount

end Tape

end LoopDiff
