import LoopDiff.Tape.Derivatives
import LoopDiff.Tape.Dependency

/-!
# LoopDiff.Model.Outer

The part of a model outside every loop.

Its tape reads all independents of the model.  The first outputs are the
dependents that no loop computes, listed in `dependents`; the outputs
after them are the temporaries that loops read.
-/

namespace LoopDiff

open Std

/-- The equations outside every loop, and the temporaries. -/
structure Outer (F : Type) where
  tape : Tape F
  dependents : List Nat
  temporaryCount : Nat

namespace Outer

variable {F : Type}

/-- The outer part with the given tape, if the tape has the right number of
outputs and no dependent is listed twice. -/
def make (tape : Tape F) (dependents : List Nat) (temporaryCount : Nat) :
    Except Failure (Outer F) := do
  checkSize .outerTapeOutput (dependents.length + temporaryCount) tape.outputCount
  match firstRepeat? dependents ∅ with
  | some d => refuse (.invalidModel (.listedTwice d))
  | none => return ⟨tape, dependents, temporaryCount⟩

variable (o : Outer F)

/-- The tape outputs of the dependents. -/
def equations : TreeMap Nat Nat := TreeMap.ofList o.dependents.zipIdx

/-- The tape output of a dependent of the model, if it is computed here. -/
def equation? (dependent : Nat) : Option Nat := o.equations[dependent]?

/-- The tape output of a temporary. -/
def temporaryOutput (k : Nat) : Nat := o.dependents.length + k

/-- The independents that each tape output depends on. -/
def jacobianSparsity : Except Failure (List IndexSet) := o.tape.jacobianSparsity

/-- The independents that each temporary depends on. -/
def temporaryDependencies : Except Failure (List IndexSet) := do
  if o.temporaryCount = 0 then return []
  return (← o.jacobianSparsity).drop o.dependents.length

/-- The Hessian pattern of the dependents. -/
def hessianSparsity : Except Failure PairSet :=
  o.tape.hessianSparsityFor (List.range o.dependents.length)

/-- The Hessian pattern of a temporary. -/
def temporaryHessianSparsity (k : Nat) : Except Failure PairSet :=
  o.tape.hessianSparsityFor [o.temporaryOutput k]

end Outer

end LoopDiff
