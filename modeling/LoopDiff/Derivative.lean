import LoopDiff.Arith
import LoopDiff.Failure

/-!
# LoopDiff.Derivative

Partial derivatives of the elementary operations.

Each rule is written with the operations of the value type itself.  On
plain numbers it yields the partial derivatives; on dual numbers it also
yields their tangents, which is what second derivatives need; on recorded
values it adds the derivative to the graph.

The rules use the result `r` of the operation wherever that is cheaper
than starting from the operands.

The derivative of an integer power is a multiple of the next lower power.
Exponents are 32-bit numbers, and the least of them has no next lower one:
the subtraction overflows, and the rule crashes.
-/

namespace LoopDiff

/-- The next lower exponent. -/
def Exponent.pred {m : Type → Type} [Monad m] [MonadExceptOf Failure m] (n : Int32) : m Int32 :=
  if n = Int32.minValue then throw (.crash none) else pure (n - 1)

namespace Derivative

open Arith Constants

variable {m : Type → Type} {F T : Type} [Monad m] [Scalar F] [Constants F T] [Arith m T]

/-- Partial derivatives of `r = op x y` by `x` and by `y`. -/
def binary (op : Binary) (x y r : T) : m (T × T) :=
  match op with
  | .add => pure (one, one)
  | .sub => do
    let minusOne ← neg one
    pure (one, minusOne)
  | .mul => pure (y, x)
  | .div => do
    let inv ← recip y
    let byY ← neg (← mul (← mul x inv) inv)
    pure (inv, byY)
  | .pow => do
    let byX ← mul y (← pow x (← sub y one))
    let byY ← mul r (← Arith.unary .ln x)
    pure (byX, byY)

/-- Derivative of `r = op x` by `x`. -/
def unary (op : Unary) (x r : T) : m T :=
  match op with
  | .neg => neg one
  | .recip => do neg (← mul r r)
  | .sqrt => do
    let two : T ← add one one
    recip (← mul two r)
  | .exp => pure r
  | .ln => recip x
  | .sin => Arith.unary .cos x
  | .cos => do neg (← Arith.unary .sin x)
  | .tan => do add one (← mul r r)
  | .sinh => Arith.unary .cosh x
  | .cosh => Arith.unary .sinh x
  | .tanh => do sub one (← mul r r)

variable [MonadExceptOf Failure m]

/-- Derivative of `x ^ n` by `x`. -/
def powi (x : T) (n : Int32) : m T := do
  mul (ofInt n.toInt) (← Arith.powi x (← Exponent.pred n))

/-- Partial derivatives of an operation with result `r`.  A slot that the
operation does not read has derivative zero. -/
def ofOp (op : OpCode) (x y r : T) (n : Int32) : m (T × T) :=
  match op with
  | .input | .const => pure (zero, zero)
  | .powi => return (← powi x n, zero)
  | .binary op => binary op x y r
  | .unary op => return (← unary op x r, zero)

end Derivative

end LoopDiff
