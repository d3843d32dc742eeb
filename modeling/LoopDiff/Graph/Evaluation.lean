import LoopDiff.Graph.Arena

/-!
# LoopDiff.Graph.Evaluation

Evaluation of a finished graph on numbers.

`evaluate` computes the requested values on demand.  A value node is
visited after its operands, the last operand first; the marks of a visit
detect a node that depends on itself.  An accumulation reads its location
from the accumulator of every loop among its arguments, and a loop is run
when one of its locations is first read: once per iteration its results
are executed, each adding to, or assigning, the location its pattern
gives.

Four things are remembered.  Values that do not depend on the iteration
are kept for the whole evaluation, values that do are dropped whenever
the iteration changes, and accumulators and branch chains are kept once
formed.

A loop may read an accumulation over another loop, and conditional
results may nest; both nestings follow arguments, so in an acyclic graph
neither is deeper than the graph is large.  That size is the `depth` that
bounds the recursion, and `evaluate` supplies it.  A recursion that is cut off
there fails in a way of its own (`endless`).
-/

namespace LoopDiff

open Std

variable {F : Type}

/-! ## Iteration ranges -/

/-- The upper end of a range without an upper end: the greatest 64-bit
word. -/
def openEnd : Nat := 0xffffffffffffffff

/-- Whether an iteration is in one of the inclusive ranges listed as
`lo, hi, lo, hi, …`. -/
def inRanges : List Nat → Nat → Bool
  | lo :: hi :: rest, i => lo ≤ i && (hi == openEnd || i ≤ hi) || inRanges rest i
  | _, _ => false

/-! ## State -/

/-- What a loop has written, by location. -/
abbrev Accumulator (F : Type) := TreeMap Nat F

/-- The branches of a conditional in order of creation, each with its
results. -/
abbrev Chain := List (NodeRef × List NodeRef)

/-- What an evaluation remembers. -/
structure Memory (F : Type) where
  /-- The current iteration, inside a loop. -/
  iteration : Option Nat
  invariant : TreeMap Nat F
  varying : TreeMap Nat F
  loops : TreeMap Nat (Accumulator F)
  chains : TreeMap Nat Chain

/-- Computations of an evaluation. -/
abbrev Eval (F : Type) := StateT (Memory F) (Except Failure)

namespace Memory

def empty : Memory F := ⟨none, ∅, ∅, ∅, ∅⟩

/-- A remembered value, and whether it depends on the iteration. -/
def value? (m : Memory F) (i : Nat) : Option (F × Bool) :=
  match m.invariant[i]? with
  | some x => some (x, false)
  | none => m.varying[i]?.map fun x => (x, true)

/-- Remembers a value. -/
def keep (m : Memory F) (i : Nat) (x : F) (varies : Bool) : Memory F :=
  if varies then { m with varying := m.varying.insert i x }
  else { m with invariant := m.invariant.insert i x }

/-- Moves to another iteration, or out of the loop. -/
def moveTo (m : Memory F) (iteration : Option Nat) : Memory F :=
  { m with iteration := iteration, varying := ∅ }

end Memory

/-- What is evaluated: a graph on input arrays. -/
structure Problem (F : Type) where
  arena : Arena F
  inputs : List (Array F)

namespace Problem

variable (p : Problem F)

/-- The failure of an evaluation that has gone deeper than the graph is large. -/
def endless (r : NodeRef) : Failure := .crash (some (.invalidGraph (.dependsOnItself r.index)))

/-- The number at a position of an input array. -/
def input (array position : Nat) : Except Failure F :=
  match (p.inputs[array]?).bind fun values => values[position]? with
  | some x => .ok x
  | none => refuse (.invalidGraph (.missingInput position array))

/-- The index that a registered pattern gives at an iteration. -/
def patternAt (pattern iteration : Nat) : Except Failure Nat :=
  match (p.arena.pattern? pattern).bind fun q => q.eval iteration with
  | some i => .ok i
  | none => refuse (.invalidGraph (.noIndex pattern iteration))

/-- The current iteration, required by the node `r`. -/
def iterationFor (r : NodeRef) : Eval F Nat := do
  match (← get).iteration with
  | some i => return i
  | none => refuse (.invalidGraph (.outsideLoop r.index))

/-! ## Value nodes -/

/-- How far a visit has come with a node. -/
inductive Mark (F : Type) where
  /-- Its operands are being visited. -/
  | opened
  | done (x : F) (varies : Bool)

/-- The marks of one visit, by position. -/
abbrev Marks (F : Type) := TreeMap Nat (Mark F)

/-- The arguments whose values a node reads.  Of an accumulation these are
the arguments that are not loops. -/
def operands (n : Node F) : Except Failure (List NodeRef) :=
  match n.kind with
  | .assign | .synonym => .ok ((n.args.take 1).filterMap Value.node?)
  | .op _ | .compound _ => .ok (n.args.filterMap Value.node?)
  | .accumulate =>
    (n.args.filterMap Value.node?).filterM fun r => do
      return (← p.arena.node r).kind != .loopEnd
  | _ => .ok []

/-- The value of an operand that has been visited. -/
def operand (marks : Marks F) (r : NodeRef) : Value F → Except Failure (F × Bool)
  | .const x => .ok (x, false)
  | .node a =>
    match marks[a.index]? with
    | some (.done x varies) => .ok (x, varies)
    | _ => refuse (.invalidGraph (.operandMissing a.index r.index))

variable [Scalar F]

/-- What the loop ending at `loop` has written to a location; zero if it
wrote nothing there.  `run` runs a loop. -/
def locationValue (run : NodeRef → Eval F (Accumulator F)) (loop : NodeRef) (location : Nat) :
    Eval F F := do
  let acc ← match (← get).loops[loop.index]? with
    | some acc => pure acc
    | none => do
      let acc ← run loop
      modify fun m => { m with loops := m.loops.insert loop.index acc }
      pure acc
  return acc.getD location Scalar.zero

/-- The value of a node whose operands have been visited, and whether it
depends on the iteration. -/
def nodeValue (run : NodeRef → Eval F (Accumulator F)) (marks : Marks F) (r : NodeRef)
    (n : Node F) : Eval F (F × Bool) :=
  match n.kind with
  | .independent => do
    let array ← present n.info[0]?
    let position ← present n.info[1]?
    return (← p.input array position, false)
  | .assign | .synonym => do
    operand marks r (← present n.args[0]?)
  | .op code => do
    let (x, vx) ← operand marks r (← present n.args[0]?)
    let (y, vy) ← match n.args[1]? with
      | some v => operand marks r v
      | none => pure (Scalar.zero, false)
    let exponent ← match code with
      | .powi => do pure (Exponent.decode (← present n.info[0]?))
      | _ => pure 0
    return (code.eval x y exponent, vx || vy)
  | .compound op => do
    let (x, vx) ← operand marks r (← present n.args[0]?)
    let (y, vy) ← operand marks r (← present n.args[1]?)
    return ((OpCode.binary op.toBinary).eval x y 0, vx || vy)
  | .iteration => do
    return (Scalar.ofInt (← iterationFor r), true)
  | .indexedRead => do
    let i ← iterationFor r
    let position ← p.patternAt (← present n.info[1]?) i
    return (← p.input (← present n.info[0]?) position, true)
  | .accumulate => do
    let location ← present n.info[0]?
    let sum ← n.args.foldlM (fun sum arg => do
      let loop? ← match arg with
        | .const _ => pure none
        | .node a => do
          pure (if (← p.arena.node a).kind = .loopEnd then some a else none)
      let x ← match loop? with
        | some loop => locationValue run loop location
        | none => do pure (← operand marks r arg).1
      return Scalar.binary .add sum x) Scalar.zero
    return (sum, false)
  | kind => refuse (.invalidGraph (.noValue kind r.index))

/-- Visits a node: its operands first, from the last to the first, then the
node itself. -/
def visit (run : NodeRef → Eval F (Accumulator F)) :
    (depth : Nat) → NodeRef → Marks F → Eval F (Marks F)
  | 0, r, _ => throw (endless r)
  | depth + 1, r, marks => do
    match marks[r.index]?, (← get).value? r.index with
    | some (.done _ _), _ => return marks
    | _, some (x, varies) => return marks.insert r.index (.done x varies)
    | some .opened, none => refuse (.invalidGraph (.dependsOnItself r.index))
    | none, none => do
      let n ← p.arena.node r
      let children ← p.operands n
      let marks ← children.reverse.foldlM (fun marks a => visit run depth a marks)
        (marks.insert r.index .opened)
      let (x, varies) ← p.nodeValue run marks r n
      modify fun m => m.keep r.index x varies
      return marks.insert r.index (.done x varies)

/-- More nodes can never be open at the same time. -/
def depth : Nat := p.arena.size + 1

/-- The value of a node. -/
def value (run : NodeRef → Eval F (Accumulator F)) (r : NodeRef) : Eval F F := do
  match (← get).value? r.index with
  | some (x, _) => return x
  | none => do
    let marks ← p.visit run p.depth r ∅
    match marks[r.index]? with
    | some (.done x _) => return x
    | _ => refuse (.invalidGraph (.notEvaluated r.index))

/-! ## Branches -/

/-- The positions of the results that the branch of a result was given. -/
def earlierResults (i : Nat) : Except Failure (List Nat) := do
  let n ← present p.arena.nodes[i]?
  if n.kind ≠ .branchResult then
    refuse (.invalidGraph (.notBranchResult n.kind i))
  match ← present n.args[0]? with
  | .const _ => refuse (.invalidGraph .resultWithoutBranch)
  | .node branch => do
    let b ← p.arena.node branch
    let results ← (b.args.filterMap Value.node?).filterM fun r => do
      return (← p.arena.node r).kind = .branchResult
    return results.map NodeRef.index

/-- The branch that a result belongs to. -/
def branchOf? (i : Nat) : Option Nat :=
  match p.arena.nodes[i]? with
  | some n => (n.args.head?.bind Value.node?).map NodeRef.index
  | none => none

/-- The branches behind an end of conditionals, each with its results, by
walking back from the results of the last branch. -/
def collectChain (endIf : NodeRef) : Except Failure Chain := do
  let n ← p.arena.node endIf
  let seen ← explore p.earlierResults (Array.replicate p.arena.size false) n.argIndices.reverse
  let results := (List.range p.arena.size).filter fun i => seen.getD i false
  let branches : TreeMap Nat (List NodeRef) := results.foldl (fun branches i =>
    match p.branchOf? i with
    | some b => branches.insert b (branches.getD b [] ++ [p.arena.handle i])
    | none => branches) ∅
  return branches.toList.map fun (b, results) => (p.arena.handle b, results)

/-- The chain behind an end of conditionals, collected when first needed. -/
def chainOf (endIf : NodeRef) : Eval F Chain := do
  match (← get).chains[endIf.index]? with
  | some chain => return chain
  | none => do
    let chain ← p.collectChain endIf
    modify fun m => { m with chains := m.chains.insert endIf.index chain }
    return chain

/-- Whether the condition of a branch holds at an iteration. -/
def holds (branch : NodeRef) (iteration : Nat) : Except Failure Bool := do
  let n ← p.arena.node branch
  let given (v : Value F) : Except Failure Bool :=
    match v with
    | .const _ => refuse (.invalidGraph .branchWithoutCondition)
    | .node r => do return inRanges (← p.arena.node r).info iteration
  match n.kind with
  | .startIf => given (← present n.args[0]?)
  | .elseIf => given (← present n.args[1]?)
  | .otherwise => return true
  | kind => refuse (.invalidGraph (.notBranch kind branch.index))

/-- The results of the first branch whose condition holds. -/
def taken (iteration : Nat) : Chain → Except Failure (List NodeRef)
  | [] => .ok []
  | (branch, results) :: rest => do
    if ← p.holds branch iteration then return results else taken iteration rest

/-- The node that a conditional result executes. -/
def guarded (result : NodeRef) : Except Failure NodeRef := do
  match ← present (← p.arena.node result).args[1]? with
  | .node r => return r
  | .const _ => refuse (.invalidGraph .resultWithoutValue)

/-! ## Loops -/

/-- Executes a result of a loop body: a write, or the write of the branch
that is taken. -/
def execute (value : NodeRef → Eval F F) :
    (depth : Nat) → NodeRef → Accumulator F → Eval F (Accumulator F)
  | 0, r, _ => throw (endless r)
  | depth + 1, r, acc => do
    let n ← p.arena.node r
    match n.kind with
    | .indexedWrite => do
      let i ← iterationFor r
      let x ← match ← present n.args[0]? with
        | .const x => pure x
        | .node a => value a
      let location ← p.patternAt (← present n.info[0]?) i
      if (← present n.info[1]?) = 1 then
        return acc.insert location (Scalar.binary .add (acc.getD location Scalar.zero) x)
      else
        return acc.insert location x
    | .endIf => do
      let chain ← p.chainOf r
      let i ← iterationFor r
      (← p.taken i chain).foldlM (fun acc result => do
        execute value depth (← p.guarded result) acc) acc
    | kind => refuse (.invalidGraph (.notLoopResult kind r.index))

/-- Runs `body` for the iterations `i, i + 1, …`, as many as `count`. -/
def iterate (body : Nat → Accumulator F → Eval F (Accumulator F)) :
    (count : Nat) → (i : Nat) → Accumulator F → Eval F (Accumulator F)
  | 0, _, acc => return acc
  | count + 1, i, acc => do
    iterate body count (i + 1) (← body i acc)

/-- Runs the loop ending at `loop`. -/
def runLoop : (depth : Nat) → (loop : NodeRef) → Eval F (Accumulator F)
  | 0, loop => throw (endless loop)
  | depth + 1, loop => do
    let n ← p.arena.node loop
    let start ← match ← present n.args[0]? with
      | .node r => pure r
      | .const _ => refuse (.invalidGraph .loopWithoutStart)
    let iterations ← present (← p.arena.node start).info[1]?
    let outside := (← get).iteration
    let acc ← iterate (fun i acc => do
      modify fun m => m.moveTo (some i)
      (n.args.tail.filterMap Value.node?).foldlM (fun acc r =>
        p.execute (p.value (runLoop depth)) p.depth r acc) acc) iterations 0 ∅
    modify fun m => m.moveTo outside
    return acc

/-- The value of an output. -/
def output (v : Value F) : Eval F F :=
  match v with
  | .const x => return x
  | .node r => p.value (p.runLoop p.depth) r

end Problem

/-- The values of `outputs` for the given input arrays. -/
def Arena.evaluate [Scalar F] (a : Arena F) (outputs : List (Value F)) (inputs : List (List F)) :
    Except Failure (List F) :=
  let p : Problem F := ⟨a, inputs.map List.toArray⟩
  (outputs.mapM p.output).run' Memory.empty

end LoopDiff
