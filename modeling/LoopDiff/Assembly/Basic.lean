import LoopDiff.Model.Dependency
import LoopDiff.Loop.Scope

/-!
# LoopDiff.Assembly.Basic

What the assemblers of compiled graphs have in common.

An assembler records a graph that computes one output for every requested
element.  It starts from the independents of the model and, for weighted
second derivatives, one weight per dependent.  A loop of the model becomes
a loop of the graph: its body is the tape of the loop, recorded once with
inputs that are read through index patterns.

An output that a loop contributes to is an accumulation over the loop and
over what the output was before.
-/

namespace LoopDiff

open Std Recording

variable {F : Type} [Scalar F]

/-- The values an assembly starts from. -/
structure Assembly (F : Type) where
  model : Model F
  independents : Array (Value F)
  weights : Array (Value F)

namespace Assembly

/-- Records the independents, and the weights if there are any. -/
def begin (model : Model F) (weighted : Bool) : Recording F (Assembly F) := do
  let independents ← reporting (Arena.newIndependents independentsArray model.domain)
  let weights ← if weighted
    then reporting (Arena.newIndependents weightsArray model.range)
    else pure []
  return ⟨model, independents.toArray, weights.toArray⟩

variable (asm : Assembly F)

/-! ## Temporaries -/

/-- The outputs of the outer tape: its dependents, then the temporaries. -/
def outerValues : Recording F (List (Value F)) :=
  match asm.model.outer? with
  | some o => o.tape.eval asm.independents.toList
  | none => return []

/-- The temporaries. -/
def temporaries : Recording F (List (Value F)) := do
  let dependentCount := (asm.model.outer?.map fun o => o.dependents.length).getD 0
  return (← asm.outerValues).drop dependentCount

/-- The derivatives of each temporary that are not known to be zero, by
independent. -/
def temporaryJacobian : Recording F (List (TreeMap Nat (Value F))) :=
  match asm.model.outer? with
  | none => return []
  | some o => do
    let n := o.dependents.length
    let sparsity ← o.jacobianSparsity
    let rows := sparsity.zipIdx.map fun (row, i) => if i < n then ∅ else row
    let entries : PairMap (Value F) ← o.tape.jacobianEntries asm.independents.toList rows
    return (entries.toList.foldl (fun rows ((i, j), v) =>
      if v.isZero then rows else rows.modify (i - n) fun row => row.insert j v)
      (Array.replicate o.temporaryCount ∅)).toList

/-- The derivatives of the temporaries, if they are needed. -/
def neededJacobian (needed : Bool) : Recording F (List (TreeMap Nat (Value F))) :=
  if needed then asm.temporaryJacobian else return []

/-- The requested second derivatives of a temporary that can be nonzero. -/
def temporaryHessian (k : Nat) (requested : List (Nat × Nat)) :
    Recording F (PairMap (Value F)) :=
  match asm.model.outer? with
  | none => return ∅
  | some o => do
    let sparsity ← o.temporaryHessianSparsity k
    let seeds := (List.range o.tape.outputCount).map fun i =>
      (.const (if i = o.temporaryOutput k then Scalar.one else Scalar.zero) : Value F)
    o.tape.hessianEntries asm.independents.toList seeds
      (TreeSet.ofList (requested.filter sparsity.contains))

/-- A value of a loop body, times the derivative of the temporary that it
goes on through.  Without a chain the value is left as it is. -/
def chained (l : Loop F) (temporaryJacobian : List (TreeMap Nat (Value F))) (input : Nat)
    (chain : Option Nat) (v : Value F) : Recording F (Value F) :=
  match chain, l.temporaryOf? input with
  | some j, some k =>
    let dz := (temporaryJacobian.getD k ∅).getD j (.const Scalar.zero)
    Recording.reporting (Value.binary (.binary .mul) v dz)
  | _, _ => return v

/-! ## Loops -/

/-- The inputs of a loop tape inside its loop. -/
def loopInputs (l : Loop F) (s : LoopScope) : Recording F (List (Value F)) := do
  let indexed ← l.indexedPatterns.mapM fun p => s.read independentsArray p
  let nonIndexed ← l.nonIndexed.mapM fun j => present asm.independents[j]?
  if l.temporaries.isEmpty then return indexed ++ nonIndexed
  let all := (← asm.temporaries).toArray
  let temporaries ← l.temporaries.mapM fun k => present all[k]?
  return indexed ++ nonIndexed ++ temporaries

/-- The weights of the equations of a loop inside its loop. -/
def loopWeights (l : Loop F) (s : LoopScope) : Recording F (List (Value F)) :=
  l.dependentPatterns.mapM fun p => s.read weightsArray p

end Assembly

/-! ## Outputs -/

/-- The outputs of an assembly so far, by location. -/
abbrev Outputs (F : Type) := Array (Value F)

/-- Outputs to which nothing contributes yet. -/
def Outputs.zeros (n : Nat) : Outputs F := Array.replicate n (.const Scalar.zero)

/-- The value of an output after adding what a loop has written to a
location.  An output that is an accumulation already takes the loop in. -/
def addLoop (output : Value F) (loopEnd : NodeRef) (location : Nat) : Recording F (Value F) := do
  let accumulation? ← match output with
    | .const _ => pure none
    | .node r => do
      let n ← reporting do (← get).node r
      pure (if n.kind = .accumulate then some r else none)
  match accumulation? with
  | some r => do
    reporting (Arena.append r [.node loopEnd])
    return output
  | none =>
    let earlier := if output.isZero then [] else [output]
    return .node (← push .accumulate (earlier ++ [.node loopEnd]) [location])

/-- Adds a loop, if it has an end, to the outputs at the given locations. -/
def addLoopAt (outputs : Outputs F) (loopEnd? : Option NodeRef) (locations : List Nat) :
    Recording F (Outputs F) :=
  match loopEnd? with
  | none => return outputs
  | some loopEnd =>
    locations.foldlM (fun outputs k => do
      return outputs.setIfInBounds k (← addLoop (← present outputs[k]?) loopEnd k)) outputs

end LoopDiff
