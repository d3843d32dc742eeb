import LoopDiff.Graph.Arithmetic

/-!
# LoopDiff.Graph.Recording

Recording into the active arena.

A recording runs against the active arena, if there is one.  It is the
state of `Recording`: absent outside every recording session, and kept
when a computation fails, so that whatever was recorded before the
failure is still there.

Functions that report (`reporting`) pass on the error of the arena
operation.  Operators cannot report and crash instead (`operating`).
Either way known numbers are folded without asking for an arena.
-/

namespace LoopDiff

/-- Computations that record into the active arena. -/
abbrev Recording (F : Type) := ExceptT Failure (StateM (Option (Arena F)))

namespace Recording

variable {F α : Type}

/-- Runs an arena operation on the active arena. -/
def reporting (op : ArenaM F α) : Recording F α := fun
  | none => (.error (.error .noActiveArena), none)
  | some a => (op.run.run a).map id some

/-- Runs an arena operation on the active arena and crashes where it would
report. -/
def operating (op : ArenaM F α) : Recording F α :=
  tryCatch (reporting op) fun e => throw e.toCrash

/-- Runs a recording with `a` as the active arena. -/
def runIn (a : Arena F) (r : Recording F α) : Except Failure α × Arena F :=
  let (result, state) := r.run.run (some a)
  (result, state.getD a)

variable [Scalar F]

/-- Records a node. -/
def push (kind : Kind) (args : List (Value F)) (info : List Nat) : Recording F NodeRef :=
  reporting (Arena.push kind args info)

/-! ## Operators -/

def binary (op : OpCode) (l r : Value F) : Recording F (Value F) :=
  match l, r with
  | .const x, .const y => return .const (op.eval x y 0)
  | l, r => operating (Value.binary op l r)

def unary (op : OpCode) (v : Value F) : Recording F (Value F) :=
  match v with
  | .const x => return .const (op.eval x Scalar.zero 0)
  | v => operating (Value.unary op v)

def powi (v : Value F) (n : Int32) : Recording F (Value F) :=
  match v with
  | .const x => return .const (Scalar.powi x n)
  | v => operating (Value.powi v n)

def compound (op : Compound) (slot v : Value F) : Recording F (Value F) :=
  match slot, v with
  | .const x, .const y => return .const ((OpCode.binary op.toBinary).eval x y 0)
  | slot, v => operating (Value.compound op slot v)

instance : Arith (Recording F) (Value F) where
  binary op := binary (.binary op)
  unary op := unary (.unary op)
  powi := powi

end Recording

end LoopDiff
