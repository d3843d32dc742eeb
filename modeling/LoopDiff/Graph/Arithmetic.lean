import LoopDiff.Graph.Arena

/-!
# LoopDiff.Graph.Arithmetic

Arithmetic on the values of an arena.

Operations between known numbers give a known number and leave the arena
alone.  As soon as a node takes part, the operation is recorded, unless
an identity makes that unnecessary: adding zero, multiplying or dividing
by one, multiplying by zero.

A product with a known zero, and a quotient of a known zero, is the known
zero whatever the other operand turns out to be, infinities and the
not-a-number included.

`compound` gives a slot a new value.  The node that held the old one is
marked as overwritten and keeps its value, since other slots may share
it.
-/

namespace LoopDiff

namespace Value

variable {F : Type} [Scalar F]

/-- Fails if two nodes belong to different arenas. -/
def checkSameArena : Value F → Value F → Except Failure Unit
  | .node l, .node r =>
    if l.arena = r.arena then .ok () else refuse (.arenaMismatch l.arena r.arena)
  | _, _ => .ok ()

/-! ## Binary operations -/

/-- What an operation comes down to. -/
inductive Reduced (F : Type) where
  /-- A value that is there already. -/
  | value (v : Value F)
  /-- The negation of a value. -/
  | negation (v : Value F)
  /-- Nothing simpler than the operation itself. -/
  | operation

/-- The identities of a binary operation with at least one node. -/
def reduce (op : OpCode) (l r : Value F) : Reduced F :=
  match op with
  | .binary .add =>
    if l.isZero then .value r
    else if r.isZero then .value l
    else .operation
  | .binary .sub =>
    if r.isZero then .value l
    else if l.isZero then .negation r
    else .operation
  | .binary .mul =>
    if l.isZero || r.isZero then .value (.const Scalar.zero)
    else if l.isOne then .value r
    else if r.isOne then .value l
    else .operation
  | .binary .div =>
    if r.isOne then .value l
    else if l.isZero then .value (.const Scalar.zero)
    else .operation
  | _ => .operation

/-- Records a unary operation on a value of the arena. -/
def recordUnary (op : OpCode) (v : Value F) : ArenaM F (Value F) := do
  (← get).checkValue v
  return .node (← Arena.push (.op op) [v] [])

/-- `op l r`. -/
def binary (op : OpCode) (l r : Value F) : ArenaM F (Value F) :=
  match l, r with
  | .const x, .const y => return .const (op.eval x y 0)
  | l, r => do
    checkSameArena l r
    (← get).checkValue l
    (← get).checkValue r
    match reduce op l r with
    | .value v => return v
    | .negation v => recordUnary (.unary .neg) v
    | .operation => return .node (← Arena.push (.op op) [l, r] [])

/-! ## Unary operations and powers -/

/-- `op v`. -/
def unary (op : OpCode) (v : Value F) : ArenaM F (Value F) :=
  match v with
  | .const x => return .const (op.eval x Scalar.zero 0)
  | .node _ => recordUnary op v

/-- `v ^ n`.  The powers zero and one of a node need no operation. -/
def powi (v : Value F) (n : Int32) : ArenaM F (Value F) :=
  match v with
  | .const x => return .const (Scalar.powi x n)
  | .node r =>
    if n = 0 then return .const Scalar.one
    else if n = 1 then return v
    else do
      (← get).check r
      return .node (← Arena.push (.op .powi) [v] [Exponent.encode n])

/-! ## Slots -/

/-- Gives a known number a node of its own. -/
def toNode (v : Value F) : ArenaM F (Value F) :=
  match v with
  | .const _ => return .node (← Arena.push .assign [v] [])
  | .node r => do
    (← get).check r
    return v

/-- Records `op` on a slot whose old value is held by the node `old`. -/
def replace (op : Compound) (old : NodeRef) (v : Value F) : ArenaM F (Value F) := do
  Arena.markOverwritten old
  return .node (← Arena.push (.compound op) [.node old, v] [])

/-- The value of `slot` after `slot op= v`. -/
def compound (op : Compound) (slot v : Value F) : ArenaM F (Value F) :=
  match slot, v with
  | .const x, .const y => return .const ((OpCode.binary op.toBinary).eval x y 0)
  | .const x, .node r => do
    (← get).check r
    let asNode : ArenaM F (Value F) := do
      replace op (← Arena.push .assign [slot] []) v
    match op with
    | .add => if Scalar.isZero x then return v else asNode
    | .mul =>
      if Scalar.isZero x then return slot
      else if Scalar.isOne x then return v
      else asNode
    | .div => if Scalar.isZero x then return slot else asNode
    | .sub => asNode
  | .node r, v => do
    checkSameArena slot v
    (← get).checkValue v
    (← get).check r
    match op with
    | .add | .sub => if v.isZero then return slot else replace op r v
    | .mul =>
      if v.isZero then
        Arena.markOverwritten r
        return .const Scalar.zero
      else if v.isOne then return slot
      else replace op r v
    | .div => if v.isOne then return slot else replace op r v

end Value

end LoopDiff
