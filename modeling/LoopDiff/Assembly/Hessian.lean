import LoopDiff.Assembly.Basic

/-!
# LoopDiff.Assembly.Hessian

The graph that computes requested elements of the weighted Hessian.

The Hessian is symmetric, so elements below or on the diagonal are
computed, and an element above it is computed as its transpose, or names the
value of its transpose if that is requested too (`Layout`).

In a loop, an element collects two kinds of values of the loop body:

* second derivatives of the loop tape at a pair of inputs that stand for
  the row and the column, chained through a temporary on either side;
* first derivatives of the loop tape by a temporary input, times a second
  derivative of that temporary.

A pair of inputs that meets the two sides in both orders is claimed twice
at the same iteration, and its value is added twice.
-/

namespace LoopDiff

open Std

/-! ## Layout -/

/-- Where each computed element is kept, and which elements are synonyms of
which locations. -/
structure Layout where
  computed : PairMap Nat
  synonyms : List (Nat × Nat)

namespace Layout

/-- Takes in an element above the diagonal. -/
def addUpper (layout : Layout) (row col location : Nat) : Layout :=
  match layout.computed[(col, row)]? with
  | some source => { layout with synonyms := (location, source) :: layout.synonyms }
  | none => { layout with computed := layout.computed.insert (col, row) location }

/-- The layout of a list of elements.  No element is requested twice. -/
def ofElements (elements : List (Nat × Nat)) : Except Failure Layout :=
  match firstRepeat? elements ∅ with
  | some e => refuse (.repeatedHessianElement e.1 e.2)
  | none =>
    let lower := elements.zipIdx.filter fun (e, _) => e.2 ≤ e.1
    let upper := elements.zipIdx.filter fun (e, _) => e.1 < e.2
    .ok (upper.foldr (fun (e, k) layout => layout.addUpper e.1 e.2 k)
      ⟨lower.foldl (fun computed (e, k) => computed.insert e k) ∅, []⟩)

end Layout

/-! ## Streams -/

/-- A second derivative of a loop tape at the inputs `hi ≥ lo`.  A side
that is a temporary goes on to the independent of its chain. -/
structure PairStream where
  hi : Nat
  lo : Nat
  chainHi : Option Nat
  chainLo : Option Nat
deriving DecidableEq, Repr

namespace PairStream

/-- Streams are ordered by their inputs, then by their chains. -/
def key (s : PairStream) : Nat × Nat × Option Nat × Option Nat :=
  (s.hi, s.lo, s.chainHi, s.chainLo)

instance : Ord PairStream := ⟨compareOn key⟩

instance : TransOrd PairStream := inferInstanceAs (TransCmp (compareOn key))

instance : LawfulEqOrd PairStream where
  eq_of_compare {s t} h := by
    have : s.key = t.key :=
      LawfulEqOrd.eq_of_compare (α := Nat × Nat × Option Nat × Option Nat) h
    cases s; cases t; simp_all [key]

/-- The stream of a pair of inputs in either order. -/
def ofInputs (p q : Nat) (chainP chainQ : Option Nat) : PairStream :=
  if q ≤ p then ⟨p, q, chainP, chainQ⟩ else ⟨q, p, chainQ, chainP⟩

end PairStream

/-- A first derivative of a loop tape by the temporary input `input`, times
the second derivative of the temporary by the independents `row` and
`col`. -/
structure SecondStream where
  input : Nat
  row : Nat
  col : Nat
deriving DecidableEq, Repr

namespace SecondStream

/-- Streams are ordered by input, then by independents. -/
def key (s : SecondStream) : Nat × Nat × Nat := (s.input, s.row, s.col)

instance : Ord SecondStream := ⟨compareOn key⟩

instance : TransOrd SecondStream := inferInstanceAs (TransCmp (compareOn key))

instance : LawfulEqOrd SecondStream where
  eq_of_compare {s t} h := by
    have : s.key = t.key := LawfulEqOrd.eq_of_compare (α := Nat × Nat × Nat) h
    cases s; cases t; simp_all [key]

end SecondStream

/-- The streams of a loop with their claims, and the locations claimed. -/
structure HessianStreams where
  pairs : TreeMap PairStream Claims
  seconds : TreeMap SecondStream Claims
  touched : IndexSet

namespace HessianStreams

def empty : HessianStreams := ⟨∅, ∅, ∅⟩

variable (s : HessianStreams)

/-- Claims a pair stream for a location at one iteration. -/
def claimPair (stream : PairStream) (iteration location : Nat) (pair : Nat × Nat) :
    Except Failure HessianStreams := do
  let claims ← (s.pairs.getD stream ∅).add iteration location pair
  return { s with
    pairs := s.pairs.insert stream claims
    touched := s.touched.insert location }

/-- Claims a pair stream for a location at each of `n` iterations. -/
def claimPairAlways (stream : PairStream) (n location : Nat) (pair : Nat × Nat) :
    Except Failure HessianStreams := do
  let claims ← (s.pairs.getD stream ∅).addAll n location pair
  return { s with
    pairs := s.pairs.insert stream claims
    touched := s.touched.insert location }

/-- Claims a second derivative of a temporary for a location at each of `n`
iterations. -/
def claimSecond (stream : SecondStream) (n location : Nat) : Except Failure HessianStreams := do
  let claims ← (s.seconds.getD stream ∅).addAll n location (stream.input, stream.input)
  return { s with
    seconds := s.seconds.insert stream claims
    touched := s.touched.insert location }

end HessianStreams

/-- What the claims of one loop are read off. -/
structure LoopStructure (F : Type) where
  loop : Loop F
  /-- The Hessian pattern of the loop tape. -/
  sparsity : PairSet
  /-- For every temporary input the independents by which its temporary has
  derivatives. -/
  dependencies : TreeMap Nat IndexSet
  /-- The temporary inputs that the loop depends on, with the Hessian
  patterns of their temporaries. -/
  curved : List (Nat × PairSet)

namespace LoopStructure

variable {F : Type} (l : LoopStructure F)

/-- The independents that an input stands for at an iteration.  Behind a
temporary each of them comes with itself as the chain. -/
def behind (input iteration : Nat) : List (Nat × Option Nat) :=
  match l.dependencies[input]? with
  | some independents => independents.toList.map fun j => (j, some j)
  | none => (l.loop.independentAt? input iteration).toList.map fun j => (j, none)

/-- Whether a temporary meets the input `other`.  Of several non-indexed
inputs that read the same independent it meets only the last. -/
def meetsTemporary (other : Nat) : Bool :=
  l.loop.isIndexed other || l.loop.isTemporary other ||
    ((l.loop.independentAt? other 0).bind l.loop.nonIndexed?) == some other

/-- Whether a pair of the pattern contributes. -/
def contributes (p q : Nat) : Bool :=
  (!l.loop.isTemporary p || l.meetsTemporary q) && (!l.loop.isTemporary q || l.meetsTemporary p)

/-- The streams of a pair of inputs at an iteration, with the locations of
the elements they belong to. -/
def streamsAt (layout : Layout) (p q iteration : Nat) : List (PairStream × Nat) :=
  (l.behind p iteration).flatMap fun (row, chainP) =>
    (l.behind q iteration).filterMap fun (col, chainQ) =>
      layout.computed[(row, col)]?.map fun location =>
        (.ofInputs p q chainP chainQ, location)

/-- The claims of a pair of inputs.  Without an indexed input they are the
same at every iteration. -/
def claimPair (layout : Layout) (s : HessianStreams) (p q : Nat) :
    Except Failure HessianStreams :=
  if !l.contributes p q then return s
  else if l.loop.isIndexed p || l.loop.isIndexed q then
    (List.range l.loop.iterations).foldlM (fun s i =>
      (l.streamsAt layout p q i).foldlM (fun s (stream, location) =>
        s.claimPair stream i location (p, q)) s) s
  else
    (l.streamsAt layout p q 0).foldlM (fun s (stream, location) =>
      s.claimPairAlways stream l.loop.iterations location (p, q)) s

/-- The claims of the second derivatives of a temporary. -/
def claimCurved (layout : Layout) (s : HessianStreams) (input : Nat) (pattern : PairSet) :
    Except Failure HessianStreams :=
  pattern.toList.foldlM (fun s (row, col) =>
    match layout.computed[(row, col)]? with
    | some location => s.claimSecond ⟨input, row, col⟩ l.loop.iterations location
    | none => return s) s

/-- The claims of all computed elements. -/
def streams (layout : Layout) : Except Failure HessianStreams := do
  let s ← l.sparsity.toList.foldlM (fun s (p, q) => l.claimPair layout s p q)
    HessianStreams.empty
  l.curved.foldlM (fun s (input, pattern) => l.claimCurved layout s input pattern) s

end LoopStructure

namespace Assembly

variable {F : Type} [Scalar F] (asm : Assembly F)

/-- A product recorded in the loop body. -/
def product (v w : Value F) : Recording F (Value F) :=
  Recording.reporting (Value.binary (.binary .mul) v w)

/-! ## The outer part -/

/-- Sets the elements to which the outer dependents contribute. -/
def outerHessian (layout : Layout) (outputs : Outputs F) : Recording F (Outputs F) :=
  match asm.model.outer? with
  | none => return outputs
  | some o => do
    let sparsity ← o.hessianSparsity
    let pairs := layout.computed.keys.filter sparsity.contains
    if pairs.isEmpty then return outputs
    let dependents := o.dependents.toArray
    let seeds ← (List.range o.tape.outputCount).mapM fun i =>
      match dependents[i]? with
      | some d => present asm.weights[d]?
      | none => pure (.const Scalar.zero)
    let entries : PairMap (Value F) ←
      o.tape.hessianEntries asm.independents.toList seeds (TreeSet.ofList pairs)
    entries.toList.foldlM (fun outputs (pair, v) => do
      match layout.computed[pair]? with
      | some k =>
        let sum ← Recording.reporting
          (Value.binary (.binary .add) (outputs.getD k (.const Scalar.zero)) v)
        return outputs.setIfInBounds k sum
      | none => return outputs) outputs

/-! ## Loops -/

/-- What the claims of a loop are read off. -/
def loopStructure (l : Loop F) (temporaryJacobian : List (TreeMap Nat (Value F))) :
    Except Failure (LoopStructure F) := do
  let sparsity ← l.hessianSparsity
  let dependencies := TreeMap.ofList (l.temporaryInputs.map fun (input, k) =>
    (input, (TreeSet.ofList (temporaryJacobian.getD k ∅).keys : IndexSet)))
  let curved ← match asm.model.outer? with
    | none => pure []
    | some o => do
      let used ← l.usedInputs
      (l.temporaryInputs.filter fun (input, _) => used.contains input).mapM fun (input, k) => do
        return (input, ← o.temporaryHessianSparsity k)
  return ⟨l, sparsity, dependencies, curved⟩

/-- The value of a pair stream. -/
def pairStreamValue (l : Loop F) (temporaryJacobian : List (TreeMap Nat (Value F)))
    (entries : PairMap (Value F)) (stream : PairStream) : Recording F (Value F) := do
  let v := entries.getD (stream.hi, stream.lo) (.const Scalar.zero)
  let v ← chained l temporaryJacobian stream.hi stream.chainHi v
  chained l temporaryJacobian stream.lo stream.chainLo v

/-- The second derivatives of the temporaries behind some streams. -/
def secondDerivatives (l : Loop F) (streams : List SecondStream) (requested : List (Nat × Nat)) :
    Recording F (TreeMap Nat (PairMap (Value F))) :=
  let temporaries : IndexSet :=
    TreeSet.ofList (streams.filterMap fun stream => l.temporaryOf? stream.input)
  temporaries.toList.foldlM (fun all k => do
    return all.insert k (← asm.temporaryHessian k requested)) ∅

/-- The value of a stream with a second derivative of a temporary. -/
def secondStreamValue (l : Loop F) (second : TreeMap Nat (PairMap (Value F)))
    (gradient : Array (Value F)) (stream : SecondStream) : Recording F (Value F) :=
  let g := gradient.getD stream.input (.const Scalar.zero)
  let d := match l.temporaryOf? stream.input with
    | some k => (second.getD k ∅).getD (stream.row, stream.col) (.const Scalar.zero)
    | none => .const Scalar.zero
  product g d

/-- The derivatives that the streams of a loop are made of. -/
structure BodyDerivatives (F : Type) where
  /-- Second derivatives of the weighted equations by two inputs. -/
  entries : PairMap (Value F)
  /-- First derivatives of the weighted equations, by input. -/
  gradient : Array (Value F)
  /-- Second derivatives of temporaries. -/
  second : TreeMap Nat (PairMap (Value F))

/-- The first derivatives of the weighted equations, if they are needed. -/
def neededGradient (l : Loop F) (inputs weights : List (Value F)) (needed : Bool) :
    Recording F (List (Value F)) :=
  if needed then l.tape.gradient inputs weights else return []

/-- Records the derivatives for some streams, in the loop body. -/
def bodyDerivatives (l : Loop F) (s : LoopScope) (streams : HessianStreams)
    (requested : List (Nat × Nat)) : Recording F (BodyDerivatives F) := do
  let inputs ← asm.loopInputs l s
  let weights ← loopWeights l s
  let entries ← l.tape.hessianEntries inputs weights
    (TreeSet.ofList (streams.pairs.keys.map fun stream => (stream.hi, stream.lo)))
  let gradient ← neededGradient l inputs weights !streams.seconds.isEmpty
  let second ← asm.secondDerivatives l streams.seconds.keys requested
  return ⟨entries, gradient.toArray, second⟩

/-- Records a loop with some streams and adds it to the outputs. -/
def hessianBody (outputs : Outputs F) (l : Loop F)
    (temporaryJacobian : List (TreeMap Nat (Value F))) (streams : HessianStreams)
    (requested : List (Nat × Nat)) : Recording F (Outputs F) := do
  let s ← LoopScope.begin l.id l.iterations
  let d ← asm.bodyDerivatives l s streams requested
  let s ← streams.pairs.toList.foldlM (fun (s : LoopScope) (stream, claims) => do
    s.contribute claims (← pairStreamValue l temporaryJacobian d.entries stream)) s
  let s ← streams.seconds.toList.foldlM (fun (s : LoopScope) (stream, claims) => do
    s.contribute claims (← secondStreamValue l d.second d.gradient stream)) s
  addLoopAt outputs (← s.close) streams.touched.toList

/-- Adds what a loop contributes.  The structure of the loop is not looked
at if no element is computed. -/
def hessianLoop (layout : Layout) (outputs : Outputs F) (l : Loop F) :
    Recording F (Outputs F) := do
  let temporaryJacobian ← asm.neededJacobian !l.temporaries.isEmpty
  if layout.computed.isEmpty then return outputs
  let streams ← (← asm.loopStructure l temporaryJacobian).streams layout
  if streams.pairs.isEmpty && streams.seconds.isEmpty then return outputs
  asm.hessianBody outputs l temporaryJacobian streams layout.computed.keys

/-! ## Synonyms -/

/-- Sets the elements that are synonyms of others.  A known number needs no
synonym. -/
def nameSynonyms (synonyms : List (Nat × Nat)) (outputs : Outputs F) : Recording F (Outputs F) :=
  synonyms.foldlM (fun outputs (k, source) => do
    match ← present outputs[source]? with
    | .node r => return outputs.setIfInBounds k (.node (← Recording.push .synonym [.node r] []))
    | v => return outputs.setIfInBounds k v) outputs

/-- One output for every requested element. -/
def hessian (elements : List (Nat × Nat)) : Recording F (List (Value F)) := do
  let layout ← Layout.ofElements elements
  let outputs ← asm.outerHessian layout (Outputs.zeros elements.length)
  let outputs ← asm.model.loops.foldlM (asm.hessianLoop layout) outputs
  return (← nameSynonyms layout.synonyms outputs).toList

end Assembly

end LoopDiff
