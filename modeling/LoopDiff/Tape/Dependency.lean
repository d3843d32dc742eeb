import LoopDiff.Tape.Basic
import LoopDiff.Tape.Words
import LoopDiff.Sparsity

/-!
# LoopDiff.Tape.Dependency

Which derivatives of a tape can be nonzero, from its structure alone.

The inputs an entry depends on form a bit mask, packed into words: bit `j`
is set if input `j` is reached.  A mask is the union of the masks of the
operands, so one pass over the tape gives them all, and the rows of the
Jacobian pattern are the masks of the outputs.

A Hessian entry can be nonzero where two inputs meet in a nonlinear
operation that an output depends on.  A product makes each input of one
operand meet each input of the other; a quotient also makes the inputs of
the denominator meet each other, a power those of base and exponent, and
a nonlinear function those of its argument.

An entry that names a later one finds nothing there yet.
-/

namespace LoopDiff

open Std

variable {F : Type}

/-! ## Masks -/

/-- The masks of the entries so far, and the number of inputs among them. -/
structure Masks (n : Nat) where
  masks : Array (Words n)
  inputs : Nat

namespace Entry

/-- The mask of an entry of a tape of `size` entries and `n` inputs.  There is
room for as many inputs as fit into the words set aside for them. -/
def mask (size n : Nat) (s : Masks n) : Entry F → Except Failure (Words n)
  | .input => (Words.empty n).insert s.inputs
  | e => e.args.foldlM (fun mask a =>
      if a < size then .ok (mask.union (s.masks.getD a (.empty n)))
      else .error (.crash none)) (.empty n)

/-- The number of inputs that an entry stands for. -/
def inputsAdded : Entry F → Nat
  | .input => 1
  | _ => 0

end Entry

namespace Tape

variable (t : Tape F)

/-- The mask of every entry. -/
def dependencies : Except Failure (Array (Words t.inputCount)) := do
  let s ← t.entries.toList.foldlM (fun s e => do
    return ⟨s.masks.push (← e.mask t.size t.inputCount s), s.inputs + e.inputsAdded⟩)
    (⟨#[], 0⟩ : Masks t.inputCount)
  return s.masks

/-- The inputs that each output depends on. -/
def jacobianSparsity : Except Failure (List IndexSet) := do
  let masks ← t.dependencies
  t.outputs.mapM fun o => do
    return TreeSet.ofList (← present masks[o]?).bits

/-! ## Liveness -/

/-- Marks a position. -/
def markAt (live : Array Bool) (i : Nat) : Except Failure (Array Bool) :=
  if i < live.size then .ok (live.setIfInBounds i true) else .error (.crash none)

/-- The entries that some root depends on, found from the last entry to the
first. -/
def liveEntries (roots : List Nat) : Except Failure (Array Bool) := do
  let live ← roots.foldlM markAt (Array.replicate t.size false)
  t.entries.toList.zipIdx.reverse.foldlM (fun live (e, i) =>
    if live.getD i false then e.args.foldlM markAt live else pure live) live

end Tape

/-! ## Interactions -/

/-- The masks whose inputs an operation makes meet, one from each of a pair,
given the masks of its operands. -/
def Entry.interactions {n : Nat} (mask : Nat → Words n) : Entry F → List (Words n × Words n)
  | .input | .const _ => []
  | .powi arg _ => [(mask arg, mask arg)]
  | .unary .neg _ _ => []
  | .unary _ arg _ => [(mask arg, mask arg)]
  | .binary op left right =>
    let a := mask left
    let b := mask (right.getD left)
    match op with
    | .add | .sub => []
    | .mul => [(a, b)]
    | .div => [(a, b), (b, b)]
    | .pow => [(a, b), (b, b), (a, a)]

/-- For each input the mask of those it meets. -/
abbrev Meetings (n : Nat) := Array (Words n)

namespace Meetings

variable {n : Nat}

/-- The inputs of a mask meet those of another. -/
def add (rows : Meetings n) (left right : Words n) : Meetings n :=
  left.bits.foldl (fun rows i => rows.modify i (·.union right)) rows

/-- The inputs of two masks meet each other, in both orders. -/
def addBoth (rows : Meetings n) (masks : Words n × Words n) : Meetings n :=
  (rows.add masks.1 masks.2).add masks.2 masks.1

/-- The pairs of inputs that meet. -/
def pairs (rows : Meetings n) : PairSet :=
  TreeSet.ofList (rows.toList.zipIdx.flatMap fun (mask, i) => mask.bits.map fun j => (i, j))

end Meetings

namespace Tape

variable (t : Tape F)

/-- The pairs of inputs at which the second derivative of the sum of the
selected outputs can be nonzero.  With a pair comes the swapped pair. -/
def hessianSparsityFor (selected : List Nat) : Except Failure PairSet := do
  let roots ← selected.mapM fun k => present t.outputs[k]?
  let live ← t.liveEntries roots
  let masks ← t.dependencies
  let meeting := t.entries.toList.zipIdx.flatMap fun (e, i) =>
    if live.getD i false then
      e.interactions fun a =>
        if a < i then masks.getD a (.empty t.inputCount) else .empty t.inputCount
    else []
  return (meeting.foldl Meetings.addBoth
    (Array.replicate t.inputCount (.empty t.inputCount))).pairs

/-- The pairs of inputs at which the second derivative of the sum of all
outputs can be nonzero. -/
def hessianSparsity : Except Failure PairSet :=
  t.hessianSparsityFor (List.range t.outputCount)

end Tape

end LoopDiff
