import LoopDiff.Graph.Kind
import LoopDiff.Arith

/-!
# LoopDiff.Graph.Node

Nodes, the handles that name them, and the values of a recording.

A value is either a number that is already known or the handle of a node
that will compute it.  The same type serves as the argument of a node: a
known number is embedded in the node that uses it.

A handle carries the identity of its arena, so a handle that strays into
another recording can be told apart.
-/

namespace LoopDiff

/-- The input array that holds the independents of a model. -/
def independentsArray : Nat := 0

/-- The input array that holds the weights of a weighted Hessian, one per
dependent. -/
def weightsArray : Nat := 1

/-- The name of a node: its arena and its position there. -/
structure NodeRef where
  arena : Nat
  index : Nat
deriving DecidableEq, Repr

/-- A known number or a node. -/
inductive Value (F : Type) where
  | const (x : F)
  | node (r : NodeRef)
deriving Repr

namespace Value

variable {F : Type}

/-- The node behind a value, if it is not a known number. -/
def node? : Value F → Option NodeRef
  | const _ => none
  | node r => some r

/-- The number, if it is known. -/
def const? : Value F → Option F
  | const x => some x
  | node _ => none

def isConst (v : Value F) : Bool := v.const?.isSome

/-- A node is shown by its position. -/
instance [Display F] : Display (Value F) where
  display
    | const x => Display.display x
    | node r => "v" ++ toString r.index

variable [Scalar F]

/-- A known number equal to zero. -/
def isZero : Value F → Bool
  | const x => Scalar.isZero x
  | node _ => false

/-- A known number equal to one. -/
def isOne : Value F → Bool
  | const x => Scalar.isOne x
  | node _ => false

/-- Whether two arguments are the same argument. -/
def same : Value F → Value F → Bool
  | const x, const y => Scalar.same x y
  | node r, node s => r == s
  | _, _ => false

/-- Whether two lists hold the same arguments. -/
def sameAll : List (Value F) → List (Value F) → Bool
  | [], [] => true
  | v :: vs, w :: ws => v.same w && sameAll vs ws
  | _, _ => false

instance : Constants F (Value F) where
  ofBase := const
  isZero := isZero

end Value

/-- A recorded node.  `overwritten` is set once a slot that held the node
received a new value; the value of the node itself never changes. -/
structure Node (F : Type) where
  kind : Kind
  args : List (Value F)
  info : List Nat
  overwritten : Bool
deriving Repr

namespace Node

variable {F : Type}

/-- The positions of the nodes among the arguments. -/
def argIndices (n : Node F) : List Nat :=
  n.args.filterMap fun v => v.node?.map NodeRef.index

/-- Whether a node records this operation on these arguments. -/
def records [Scalar F] (n : Node F) (kind : Kind) (args : List (Value F)) (info : List Nat) :
    Bool :=
  Value.sameAll n.args args && n.info == info && n.kind == kind

end Node

end LoopDiff
