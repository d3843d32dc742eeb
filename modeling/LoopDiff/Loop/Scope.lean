import LoopDiff.Graph.Recording
import LoopDiff.Loop.Claim
import LoopDiff.Loop.Ranges

/-!
# LoopDiff.Loop.Scope

A loop under construction, and the code that writes its values.

A loop body is recorded between `begin` and `close`.  Inside, the inputs of
the loop are read through index patterns, and its results are writes,
each through a pattern as well.

`contribute` writes one value at the locations that claimed it.  If every
iteration claims the value the same number of times, one write is enough.
Otherwise the iterations are partitioned by the number of claims, and the
writes are placed in the branches of a conditional, one branch per part.
The skeleton of a conditional depends on the partition only, so it is kept
and filled further when another value has the same partition: a result is
added to each branch by handing it to the node that follows the branch.
-/

namespace LoopDiff

open Std

/-- The iterations of one branch and the node that starts it. -/
structure Branch where
  iterations : List Nat
  node : NodeRef
deriving DecidableEq, Repr

/-- A conditional without its results. -/
structure Skeleton where
  branches : List Branch
  endIf : NodeRef
deriving DecidableEq, Repr

/-- A division of iterations into sets: ordered by size, then by first
iteration, each set ascending. -/
abbrev Partition := List (List Nat)

/-- A loop being recorded. -/
structure LoopScope where
  start : NodeRef
  index : NodeRef
  iterations : Nat
  /-- The results so far, each as often as it was contributed. -/
  results : List NodeRef
  /-- The skeletons recorded so far. -/
  skeletons : List (Partition × Skeleton)
  /-- Number of branches recorded. -/
  branches : Nat
  /-- Number of times a skeleton was used again. -/
  reused : Nat
deriving Repr

namespace LoopScope

open Recording

variable {F : Type} [Scalar F]

/-- Starts a loop. -/
def begin (loop iterations : Nat) : Recording F LoopScope := do
  let start ← push .loopStart [] [loop, iterations]
  let index ← push .iteration [.node start] []
  return ⟨start, index, iterations, [], [], 0, 0⟩

variable (s : LoopScope)

/-- Registers a pattern for the iterations of this loop. -/
def pattern (p : Pattern) : Recording F Nat := reporting (Arena.addPattern p s.iterations)

/-- Registers the pattern behind a table. -/
def detect (table : TreeMap Nat Nat) : Recording F Nat := do
  s.pattern (← present (Pattern.detect? table))

/-- Reads an input array through a pattern. -/
def read (array : Nat) (p : Pattern) : Recording F (Value F) := do
  let i ← s.pattern p
  return .node (← push .indexedRead [.node s.index] [array, i])

/-- The node that writes a value through a pattern. -/
def writeNode (v : Value F) (pattern : Nat) (accumulate : Bool) : Recording F NodeRef :=
  push .indexedWrite [v, .node s.index] [pattern, if accumulate then 1 else 0]

/-- Adds a result to the loop. -/
def addResult (r : NodeRef) : LoopScope := { s with results := s.results ++ [r] }

/-- Writes a value through a pattern, replacing what is there or adding to
it. -/
def write (v : Value F) (pattern : Nat) (accumulate : Bool) : Recording F LoopScope := do
  return s.addResult (← s.writeNode v pattern accumulate)

/-! ## Partitions -/

/-- The claimed iterations with their locations, by number of claims. -/
def groups (claims : Claims) : TreeMap Nat (TreeMap Nat Nat) :=
  claims.foldl (fun groups i c =>
    groups.insert c.count ((groups.getD c.count ∅).insert i c.location)) ∅

/-- One part of a partition: the number of claims, and the location of each
iteration. -/
abbrev Part := Nat × TreeMap Nat Nat

/-- Whether a part comes before another one: by size, then by first
iteration. -/
def partLE (p q : Part) : Bool :=
  p.2.size < q.2.size || p.2.size == q.2.size && (p.2.keys.headD 0 ≤ q.2.keys.headD 0)

/-- The parts in order. -/
def parts (groups : TreeMap Nat (TreeMap Nat Nat)) : List Part := groups.toList.mergeSort partLE

/-- The partition that parts stand for. -/
def partitionOf (parts : List Part) : Partition := parts.map fun p => p.2.keys

/-! ## Conditionals -/

/-- `v` added to itself until it has been counted `count` times. -/
def repeated (v : Value F) (count : Nat) : Recording F (Value F) :=
  (List.range (count - 1)).foldlM (fun sum _ => reporting (Value.binary (.binary .add) sum v)) v

/-- The writes of each part. -/
def partWrites (v : Value F) (parts : List Part) : Recording F (List NodeRef) :=
  parts.mapM fun (count, locations) => do
    let w ← repeated v count
    let p ← s.detect locations
    s.writeNode w p true

/-- The condition that selects the iterations of a branch. -/
def condition (iterations : List Nat) (taken : IndexSet) : Recording F NodeRef :=
  push .condition [.node s.index]
    (branchRanges (TreeSet.ofList iterations) taken (s.iterations - 1))

/-- The node that starts a branch: the first branch opens the conditional,
and a branch that takes all that is left needs no condition.  `earlier`
holds the result of the branch before. -/
def branchNode (start : Option NodeRef) (iterations : List Nat) (taken : IndexSet)
    (earlier : List (Value F)) : Recording F NodeRef :=
  match start with
  | none => do
    let c ← s.condition iterations taken
    push .startIf (.node c :: earlier) []
  | some start =>
    if taken.size + iterations.length = s.iterations then
      push .otherwise (.node start :: earlier) []
    else do
      let c ← s.condition iterations taken
      push .elseIf (.node start :: .node c :: earlier) []

/-- A conditional under construction. -/
structure Progress (F : Type) where
  start : Option NodeRef
  taken : IndexSet
  earlier : List (Value F)
  branches : List Branch

/-- Records one branch with one result. -/
def addBranch (p : Progress F) (iterations : List Nat) (write : NodeRef) :
    Recording F (Progress F) := do
  let node ← s.branchNode p.start iterations p.taken p.earlier
  let result ← push .branchResult [.node node, .node write] []
  return {
    start := some (p.start.getD node)
    taken := p.taken.insertMany iterations
    earlier := [.node result]
    branches := p.branches ++ [⟨iterations, node⟩] }

/-- Records a conditional with one result in each branch. -/
def newConditional (partition : Partition) (writes : List NodeRef) :
    Recording F Skeleton := do
  let p ← (partition.zip writes).foldlM (fun p (iterations, write) =>
    s.addBranch p iterations write) (⟨none, ∅, [], []⟩ : Progress F)
  return ⟨p.branches, ← push .endIf p.earlier []⟩

/-- Adds a result to each branch of a conditional, by way of the node that
follows the branch. -/
def extend (skeleton : Skeleton) (writes : List NodeRef) : Recording F Unit :=
  let followers := (skeleton.branches.map Branch.node).tail ++ [skeleton.endIf]
  ((skeleton.branches.zip followers).zip writes).forM fun ((branch, follower), write) => do
    let result ← push (F := F) .branchResult [.node branch.node, .node write] []
    reporting (Arena.append follower [.node result])

/-! ## Contributions -/

/-- The code that writes a value at its claims. -/
inductive Placed (F : Type) where
  /-- One write covers every iteration: the value and its pattern. -/
  | everywhere (v : Value F) (pattern : Nat)
  /-- A conditional, named by its end. -/
  | conditional (endIf : NodeRef)

/-- Records a value for its claims, up to the write itself if one write is
enough.  A claim past the end of the loop is refused. -/
def place (claims : Claims) (v : Value F) : Recording F (LoopScope × Placed F) := do
  let covered := (claims.keys.filter (· < s.iterations)).length
  if covered ≠ claims.size then
    refuse (.incompletePartition covered claims.size)
  let groups := groups claims
  match groups.toList with
  | [(count, locations)] =>
    if locations.size = s.iterations then
      let w ← repeated v count
      return (s, .everywhere w (← s.detect locations))
    else inBranches groups
  | _ => inBranches groups
where
  inBranches (groups : TreeMap Nat (TreeMap Nat Nat)) : Recording F (LoopScope × Placed F) := do
    let parts := parts groups
    let partition := partitionOf parts
    let writes ← s.partWrites v parts
    match s.skeletons.lookup partition with
    | some skeleton =>
      extend skeleton writes
      return ({ s with reused := s.reused + 1 }, .conditional skeleton.endIf)
    | none =>
      let skeleton ← s.newConditional partition writes
      return ({ s with
        branches := s.branches + skeleton.branches.length
        skeletons := s.skeletons ++ [(partition, skeleton)] }, .conditional skeleton.endIf)

/-- Adds a value at its claims to the results of the loop.  A value that is
known to be zero is dropped. -/
def contribute (claims : Claims) (v : Value F) : Recording F LoopScope := do
  if v.isZero || claims.isEmpty then return s
  match ← s.place claims v with
  | (s, .everywhere v p) => s.write v p true
  | (s, .conditional endIf) => return s.addResult endIf

/-- Ends the loop.  A loop without results leaves no node. -/
def close : Recording F (Option NodeRef) := do
  if s.results.isEmpty then return none
  let results := s.results.eraseDups
  return some (← push .loopEnd (.node s.start :: results.map Value.node) [])

/-- The skeleton kept for a partition. -/
def skeleton? (partition : Partition) : Option Skeleton := s.skeletons.lookup partition

end LoopScope

end LoopDiff
