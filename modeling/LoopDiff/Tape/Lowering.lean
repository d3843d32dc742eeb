import LoopDiff.Tape.Basic
import LoopDiff.Graph.Recording

/-!
# LoopDiff.Tape.Lowering

The tape of a recorded graph, and the recording of a function.

Only the part of the graph that the outputs depend on is lowered, in
order of creation.  Assignments and synonyms name what they stand for,
replaced slots become the operation that gave the new value, and numbers
embedded in a node become entries of their own in front of it.

Nodes of loops and branches have no place in a straight-line program, and
an independent that is not listed as an input has no value there.
-/

namespace LoopDiff

variable {F : Type}

/-- A tape under construction, and the entry of every node lowered so
far. -/
structure Draft (F : Type) where
  tape : Tape F
  places : Array (Option Nat)

namespace Draft

/-- Computations that extend a draft. -/
abbrev M (F : Type) := StateT (Draft F) (Except Failure)

/-- Adds an entry and gives its position. -/
def push (e : Entry F) : M F Nat :=
  modifyGet fun d => (d.tape.size, { d with tape := d.tape.push e })

/-- The entry of an argument. -/
def argument : Value F → M F Nat
  | .const x => push (.const x)
  | .node r => do
    present ((← get).places[r.index]?.join)

/-- Records where the value of a node is found. -/
def place (i entry : Nat) : M F Unit :=
  modify fun d => { d with places := d.places.setIfInBounds i (some entry) }

/-- Makes an independent the next input. -/
def input (a : Arena F) (r : NodeRef) : M F Unit := do
  let n ← a.node r
  if n.kind ≠ .independent then
    refuse (.invalidGraph (.tapeInputKind r.index n.kind))
  let d ← get
  let tape ← d.tape.pushInput
  set { d with tape := tape }
  place r.index d.tape.size

/-- The entry of a live node that is not an input. -/
def lower [Scalar F] (i : Nat) (n : Node F) : M F Nat :=
  match n.kind with
  | .independent => refuse (.invalidGraph (.strayIndependent i))
  | .assign | .synonym => do argument (← present n.args[0]?)
  | .op code => do
    let first ← argument (← present n.args[0]?)
    match code with
    | .powi => do
      let exponent := Exponent.decode (← present n.info[0]?)
      modifyGet fun d =>
        let (entry, tape) := d.tape.pushPowi first exponent
        (entry, { d with tape := tape })
    | .input => do
      let _ ← n.args[1]?.mapM argument
      push .input
    | .const => do
      let _ ← n.args[1]?.mapM argument
      push (.const Scalar.zero)
    | .unary op => do push (.unary op first (← n.args[1]?.mapM argument))
    | .binary op => do push (.binary op first (← n.args[1]?.mapM argument))
  | .compound op => do
    let left ← argument (← present n.args[0]?)
    let right ← argument (← present n.args[1]?)
    push (.binary op.toBinary left (some right))
  | _ => refuse .loopNodeInTape

/-- Lowers the live nodes that are not inputs, in order of creation. -/
def nodes [Scalar F] (a : Arena F) (live : Array Bool) : M F Unit :=
  a.nodes.toList.zipIdx.forM fun (n, i) => do
    if live.getD i false && ((← get).places.getD i none).isNone then
      place i (← lower i n)

end Draft

namespace Tape

variable [Scalar F]

/-- The tape that computes `outputs` from `inputs`. -/
def ofArena (a : Arena F) (inputs : List NodeRef) (outputs : List (Value F)) :
    Except Failure (Tape F) := do
  outputs.forM a.checkValue
  let live ← a.reachable (outputs.filterMap Value.node?)
  let lowering : Draft.M F (List Nat) := do
    inputs.forM (Draft.input a)
    Draft.nodes a live
    outputs.mapM Draft.argument
  let (places, d) ← lowering.run ⟨Tape.empty, Array.replicate a.size none⟩
  return { d.tape with outputs := places }

/-- The tape of a function of `n` values, recorded in an arena of its own. -/
def record (arena n : Nat) (f : List (Value F) → Recording F (List (Value F))) :
    Except Failure (Tape F) :=
  let recording : Recording F (List (Value F) × List (Value F)) := do
    let inputs ← Recording.reporting (Arena.newIndependents independentsArray n)
    return (inputs, ← f inputs)
  match recording.runIn (Arena.empty arena) with
  | (.error e, _) => .error e
  | (.ok (inputs, outputs), a) => ofArena a (inputs.filterMap Value.node?) outputs

end Tape

end LoopDiff
