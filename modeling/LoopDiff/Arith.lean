import LoopDiff.Scalar

/-!
# LoopDiff.Arith

The values a tape can be run on.

A tape is run on plain numbers, on dual numbers, on recorded graph
values, and on dual numbers over any of these.  Arithmetic on recorded
values has an effect: it adds nodes to a graph, and it fails outside a
recording.  The operations of `Arith` therefore live in a monad `m`, and
one sweep serves every kind of value.  On plain numbers the operations
are pure and `m` is arbitrary.

The order in which a function calls the operations is the order in which
a recording sees them.
-/

namespace LoopDiff

/-- Values that contain the numbers of a base type. -/
class Constants (F : outParam Type) (T : Type) where
  ofBase : F → T
  /-- Known to be zero without evaluating anything. -/
  isZero : T → Bool

/-- Elementary operations on `T`, with effects in `m`. -/
class Arith (m : Type → Type) (T : Type) where
  binary : Binary → T → T → m T
  unary : Unary → T → m T
  powi : T → Int32 → m T

namespace Constants

variable {F T : Type} [Scalar F] [Constants F T]

def zero : T := ofBase Scalar.zero

def one : T := ofBase Scalar.one

def ofInt (n : Int) : T := ofBase (Scalar.ofInt n)

end Constants

namespace Arith

variable {m : Type → Type} {T : Type} [Arith m T]

def add : T → T → m T := binary .add

def sub : T → T → m T := binary .sub

def mul : T → T → m T := binary .mul

def div : T → T → m T := binary .div

def pow : T → T → m T := binary .pow

def neg : T → m T := unary .neg

def recip : T → m T := unary .recip

end Arith

/-! ## Plain numbers -/

instance {F : Type} [Scalar F] : Constants F F where
  ofBase x := x
  isZero := Scalar.isZero

instance {m : Type → Type} {F : Type} [Monad m] [Scalar F] : Arith m F where
  binary op x y := pure (Scalar.binary op x y)
  unary op x := pure (Scalar.unary op x)
  powi x n := pure (Scalar.powi x n)

/-! ## Applying an operation -/

/-- The value of an operation.  Inputs and constants have their value
already, in `x`; a unary operation ignores `y`, and only an integer power
reads `n`. -/
def OpCode.apply {m : Type → Type} {T : Type} [Monad m] [Arith m T]
    (op : OpCode) (x y : T) (n : Int32) : m T :=
  match op with
  | .input | .const => pure x
  | .powi => Arith.powi x n
  | .binary op => Arith.binary op x y
  | .unary op => Arith.unary op x

/-- The value of an operation on plain numbers. -/
def OpCode.eval {F : Type} [Scalar F] (op : OpCode) (x y : F) (n : Int32) : F :=
  Id.run (op.apply x y n)

end LoopDiff
