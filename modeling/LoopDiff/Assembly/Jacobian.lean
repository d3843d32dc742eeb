import LoopDiff.Assembly.Basic

/-!
# LoopDiff.Assembly.Jacobian

The graph that computes requested elements of the Jacobian.

An element of an outer dependent is a derivative of the outer tape.  In a
loop, the derivative of an equation by one of its tape inputs is a value of
the loop body (a *stream*), and an iteration sends it to the element whose
dependent and independent the equation and the input stand for.  If the
input is a temporary, the stream is multiplied by the derivative of the
temporary, and there is one stream for every independent behind it.
-/

namespace LoopDiff

open Std

/-- A derivative of an equation by a tape input.  If the input is a
temporary, `chain` is the independent that the derivative goes on to. -/
structure JacobianStream where
  equation : Nat
  input : Nat
  chain : Option Nat
deriving DecidableEq, Repr

namespace JacobianStream

/-- Streams are ordered by equation, then input, then independent. -/
def key (s : JacobianStream) : Nat × Nat × Option Nat := (s.equation, s.input, s.chain)

instance : Ord JacobianStream := ⟨compareOn key⟩

instance : TransOrd JacobianStream := inferInstanceAs (TransCmp (compareOn key))

instance : LawfulEqOrd JacobianStream where
  eq_of_compare {s t} h := by
    have : s.key = t.key := LawfulEqOrd.eq_of_compare (α := Nat × Nat × Option Nat) h
    cases s; cases t; simp_all [key]

end JacobianStream

namespace Assembly

/-- Where each requested element is kept.  No element is requested twice. -/
def elementLocations (elements : List (Nat × Nat)) : Except Failure (PairMap Nat) :=
  elements.zipIdx.foldlM (fun locations (e, k) =>
    if locations.contains e then refuse (.invalidModel (.repeatedElement e.1 e.2))
    else .ok (locations.insert e k)) ∅

variable {F : Type} [Scalar F] (asm : Assembly F)

/-! ## The outer part -/

/-- The requested elements of each output of the outer tape that can be
nonzero. -/
def outerRows (o : Outer F) (sparsity : List IndexSet) (requested : List (Nat × Nat)) :
    List IndexSet :=
  let equations := o.equations
  let sparsity := sparsity.toArray
  (requested.foldl (fun rows (row, col) =>
    match equations[row]? with
    | some i =>
      if (sparsity.getD i ∅).contains col then rows.modify i fun cols => cols.insert col
      else rows
    | none => rows) (Array.replicate sparsity.size (∅ : IndexSet))).toList

/-- Sets the elements of the outer dependents. -/
def outerJacobian (locations : PairMap Nat) (outputs : Outputs F) : Recording F (Outputs F) :=
  match asm.model.outer? with
  | none => return outputs
  | some o => do
    let rows := outerRows o (← o.jacobianSparsity) locations.keys
    if rows.all fun row => row.isEmpty then return outputs
    let entries : PairMap (Value F) ← o.tape.jacobianEntries asm.independents.toList rows
    let dependents := o.dependents.toArray
    return entries.toList.foldl (fun outputs ((i, j), v) =>
      match (dependents[i]?).bind fun d => locations[(d, j)]? with
      | some k => outputs.setIfInBounds k v
      | none => outputs) outputs

/-! ## Loops -/

/-- An element that an input of an equation may contribute to: where the
element is kept, its independent, and the equation, input and iteration. -/
structure Candidate where
  location : Nat
  independent : Nat
  equation : Nat
  input : Nat
  iteration : Nat

/-- The inputs that may contribute to each requested element. -/
def candidates (l : Loop F) (sparsity : List IndexSet) (locations : PairMap Nat) :
    List Candidate :=
  let positions := l.positions
  locations.toList.flatMap fun ((row, col), k) =>
    match positions[row]? with
    | none => []
    | some at_ =>
      (sparsity.getD at_.equation ∅).toList.map fun input =>
        ⟨k, col, at_.equation, input, at_.iteration⟩

/-- The stream by which a candidate contributes, if it does. -/
def streamOf? (l : Loop F) (temporaryJacobian : List (TreeMap Nat (Value F))) (c : Candidate) :
    Except Failure (Option JacobianStream) :=
  match l.temporaryOf? c.input with
  | some t =>
    return if (temporaryJacobian.getD t ∅).contains c.independent
      then some ⟨c.equation, c.input, some c.independent⟩ else none
  | none => do
    return if (← l.independentOf c.input c.iteration) = some c.independent
      then some ⟨c.equation, c.input, none⟩ else none

/-- The streams of a loop with their claims, and the locations claimed. -/
def jacobianStreams (l : Loop F) (temporaryJacobian : List (TreeMap Nat (Value F)))
    (candidates : List Candidate) :
    Except Failure (TreeMap JacobianStream Claims × IndexSet) :=
  candidates.foldlM (fun (streams, touched) c => do
    match ← streamOf? l temporaryJacobian c with
    | none => return (streams, touched)
    | some stream => do
      let claims ← (streams.getD stream ∅).add c.iteration c.location (c.equation, c.input)
      return (streams.insert stream claims, touched.insert c.location)) (∅, ∅)

/-- The inputs by which each equation has to be differentiated. -/
def neededInputs (l : Loop F) (streams : List JacobianStream) : List IndexSet :=
  (streams.foldl (fun rows s => rows.modify s.equation fun inputs => inputs.insert s.input)
    (Array.replicate l.dependents.length (∅ : IndexSet))).toList

/-- The value of a stream. -/
def jacobianStreamValue (l : Loop F) (temporaryJacobian : List (TreeMap Nat (Value F)))
    (entries : PairMap (Value F)) (stream : JacobianStream) : Recording F (Value F) :=
  chained l temporaryJacobian stream.input stream.chain
    (entries.getD (stream.equation, stream.input) (.const Scalar.zero))

/-- Records a loop with some streams and adds it to the outputs at the
locations claimed. -/
def jacobianBody (outputs : Outputs F) (l : Loop F)
    (temporaryJacobian : List (TreeMap Nat (Value F))) (streams : TreeMap JacobianStream Claims)
    (touched : IndexSet) : Recording F (Outputs F) := do
  let s ← LoopScope.begin l.id l.iterations
  let inputs ← asm.loopInputs l s
  let entries ← l.tape.jacobianEntries inputs (neededInputs l streams.keys)
  let s ← streams.toList.foldlM (fun (s : LoopScope) (stream, claims) => do
    s.contribute claims (← jacobianStreamValue l temporaryJacobian entries stream)) s
  addLoopAt outputs (← s.close) touched.toList

/-- Adds what a loop contributes. -/
def jacobianLoop (locations : PairMap Nat) (outputs : Outputs F) (l : Loop F) :
    Recording F (Outputs F) := do
  let candidates := candidates l (← l.jacobianSparsity) locations
  let temporaryJacobian ← asm.neededJacobian
    (candidates.any fun c => (l.temporaryOf? c.input).isSome)
  let (streams, touched) ← jacobianStreams l temporaryJacobian candidates
  if streams.isEmpty then return outputs
  asm.jacobianBody outputs l temporaryJacobian streams touched

/-- One output for every requested element. -/
def jacobian (elements : List (Nat × Nat)) : Recording F (List (Value F)) := do
  let locations ← elementLocations elements
  let outputs ← asm.outerJacobian locations (Outputs.zeros elements.length)
  return (← asm.model.loops.foldlM (asm.jacobianLoop locations) outputs).toList

end Assembly

end LoopDiff
