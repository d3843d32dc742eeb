import LoopDiff.Graph.Node
import LoopDiff.Graph.Search
import LoopDiff.Pattern

/-!
# LoopDiff.Graph.Arena

An arena: the nodes of one recording in order of creation, and the index
patterns its loops use.

Arguments name nodes that already exist, so a graph is acyclic when it is
recorded.  The one change after creation that could break this is adding
arguments to an existing node; it is refused when the new argument leads
back to that node (`append`).

Recording an elementary operation that is already there gives the node
that is there (`push`).  Every other kind of node is recorded anew each
time.

Operations that change an arena run in `ArenaM`, where the arena survives
a failure: what a failing operation leaves behind can be seen, and can be
shown to be what was there before.
-/

namespace LoopDiff

/-- The nodes and patterns of one recording.  A pattern is kept with the
number of iterations it was registered for. -/
structure Arena (F : Type) where
  id : Nat
  nodes : Array (Node F)
  patterns : Array (Pattern × Nat)

/-- Computations that change an arena and keep it when they fail. -/
abbrev ArenaM (F : Type) := ExceptT Failure (StateM (Arena F))

namespace Arena

variable {F : Type}

/-- An arena without nodes. -/
def empty (id : Nat) : Arena F := ⟨id, #[], #[]⟩

/-- Number of nodes. -/
def size (a : Arena F) : Nat := a.nodes.size

/-- The handle of the node at a position. -/
def handle (a : Arena F) (index : Nat) : NodeRef := ⟨a.id, index⟩

/-- Number of nodes of one kind. -/
def count (a : Arena F) (kind : Kind) : Nat := a.nodes.countP (·.kind == kind)

/-- Whether a handle names a node of this arena. -/
def owns (a : Arena F) (r : NodeRef) : Bool := r.arena == a.id && r.index < a.size

/-- Fails unless a handle names a node of this arena. -/
def check (a : Arena F) (r : NodeRef) : Except Failure Unit :=
  if a.owns r then .ok () else refuse (.staleHandle r.arena r.index)

/-- The node that a handle names. -/
def node (a : Arena F) (r : NodeRef) : Except Failure (Node F) :=
  match a.nodes[r.index]? with
  | some n => if r.arena = a.id then .ok n else refuse (.staleHandle r.arena r.index)
  | none => refuse (.staleHandle r.arena r.index)

/-- Fails unless a value is a number or a node of this arena. -/
def checkValue (a : Arena F) : Value F → Except Failure Unit
  | .const _ => .ok ()
  | .node r => a.check r

/-! ## Reachability -/

/-- Positions of the arguments of the node at a position. -/
def successors (a : Arena F) (i : Nat) : Except Failure (List Nat) := do
  return (← present a.nodes[i]?).argIndices

/-- Marks every node that some root leads to, by position. -/
def reachable (a : Arena F) (roots : List NodeRef) : Except Failure (Array Bool) :=
  explore a.successors (Array.replicate a.size false) (roots.map NodeRef.index).reverse

/-- Whether `target` can be reached from `start` through arguments. -/
def reaches (a : Arena F) (start target : NodeRef) : Except Failure Bool :=
  if start.index = target.index then .ok true
  else do
    let marked ← a.reachable [start]
    return marked.getD target.index false

/-! ## Recording nodes -/

/-- Adds a node at the end. -/
def add (n : Node F) : ArenaM F NodeRef :=
  modifyGet fun a => (a.handle a.size, { a with nodes := a.nodes.push n })

/-- The position after the last node among some arguments. -/
def pastArgs (args : List (Value F)) : Nat :=
  (args.filterMap Value.node?).foldl (fun i r => max i (r.index + 1)) 0

/-- The node that already records an operation.  A node comes after its
arguments, so the search starts there. -/
def find? [Scalar F] (a : Arena F) (kind : Kind) (args : List (Value F)) (info : List Nat) :
    Option Nat :=
  findFrom? a.nodes (fun n => n.records kind args info) (pastArgs args)

/-- Records a node.  Elementary operations are recorded once. -/
def push [Scalar F] (kind : Kind) (args : List (Value F)) (info : List Nat) :
    ArenaM F NodeRef := do
  let a ← get
  args.forM fun v => a.checkValue v
  match kind with
  | .op _ =>
    match a.find? kind args info with
    | some i => return a.handle i
    | none => add ⟨kind, args, info, false⟩
  | _ => add ⟨kind, args, info, false⟩

/-- Records the input of `array` at `position`. -/
def newIndependent (array position : Nat) : ArenaM F (Value F) :=
  return .node (← add ⟨.independent, [], [array, position], false⟩)

/-- Records the first `n` inputs of an array. -/
def newIndependents (array n : Nat) : ArenaM F (List (Value F)) := do
  checkExtent 24 n
  (List.range n).mapM fun position => newIndependent array position

/-- Adds arguments to a node that collects them. -/
def append (target : NodeRef) (args : List (Value F)) : ArenaM F Unit := do
  let a ← get
  let n ← a.node target
  if !n.kind.isAppendable then
    refuse (.invalidGraph (.notAppendable n.kind target.index))
  args.forM fun v => a.checkValue v
  args.forM fun
    | .const _ => pure ()
    | .node r => do
      if ← a.reaches r target then
        refuse (.invalidGraph (.cycle r.index target.index))
  modify fun a =>
    { a with nodes := a.nodes.modify target.index fun n => { n with args := n.args ++ args } }

/-- Notes that a slot holding this node is about to receive a new value. -/
def markOverwritten (r : NodeRef) : ArenaM F Unit := do
  (← get).check r
  modify fun a =>
    { a with nodes := a.nodes.modify r.index fun n => { n with overwritten := true } }

/-! ## Index patterns -/

/-- The first pattern registered for `n` iterations that agrees with `p` at
each of them. -/
def findPattern? (a : Arena F) (p : Pattern) (n : Nat) : Option Nat :=
  a.patterns.findIdx? fun (q, k) => k == n && q.equivalent p n

/-- Registers a pattern, unless one with the same indices is registered. -/
def addPattern (p : Pattern) (n : Nat) : ArenaM F Nat :=
  modifyGet fun a =>
    match a.findPattern? p n with
    | some i => (i, a)
    | none => (a.patterns.size, { a with patterns := a.patterns.push (p, n) })

/-- The pattern registered under a number. -/
def pattern? (a : Arena F) (i : Nat) : Option Pattern := (a.patterns[i]?).map Prod.fst

end Arena

end LoopDiff
