import LoopDiff.Derivative
import LoopDiff.Scalar.Native

/-!
# LoopDiff.Dual

Dual numbers: a value together with its tangent.

`⟨re, eps⟩` stands for `re + eps ε` with `ε ^ 2 = 0`.  Running a tape on
dual numbers propagates one directional derivative; running it on dual
numbers over dual numbers propagates a second one.

The rules multiply the tangent by the derivative of the operation
(`chain`).  The reverse rules of `LoopDiff.Derivative` use the result of
the operation in the same way, but the two are not interchangeable: a
power with a constant exponent must not touch the logarithm of its base,
so `pow` looks at the tangent of the exponent first.
-/

namespace LoopDiff

/-- A value and its tangent. -/
structure Dual (T : Type) where
  re : T
  eps : T
deriving DecidableEq, Repr

namespace Dual

open Arith Constants

variable {m : Type → Type} {F T : Type}

section Constants

variable [Scalar F] [Constants F T]

/-- A value that does not vary. -/
def constant (x : T) : Dual T := ⟨x, zero⟩

/-- The variable of differentiation. -/
def seed (x : T) : Dual T := ⟨x, one⟩

instance : Constants F (Dual T) where
  ofBase x := constant (ofBase x)
  isZero x := isZero x.re && isZero x.eps

end Constants

variable [Monad m] [Scalar F] [Constants F T] [Arith m T]

/-- The result of a function of `x` with the given value and derivative. -/
def chain (x : Dual T) (value derivative : T) : m (Dual T) := do
  return ⟨value, ← mul x.eps derivative⟩

/-- A power.  With a constant exponent the rule is that of a power of `x`;
otherwise the exponent contributes through the logarithm of the base. -/
def power (x y : Dual T) : m (Dual T) := do
  let value ← pow x.re y.re
  if isZero y.eps then
    chain x value (← mul y.re (← pow x.re (← sub y.re one)))
  else
    let byBase ← div (← mul y.re x.eps) x.re
    let byExponent ← mul y.eps (← unary .ln x.re)
    return ⟨value, ← mul value (← add byBase byExponent)⟩

/-- The binary operations on dual numbers. -/
def binary (op : Binary) (x y : Dual T) : m (Dual T) :=
  match op with
  | .add => return ⟨← add x.re y.re, ← add x.eps y.eps⟩
  | .sub => return ⟨← sub x.re y.re, ← sub x.eps y.eps⟩
  | .mul => do
    let re ← mul x.re y.re
    let eps ← add (← mul x.re y.eps) (← mul x.eps y.re)
    return ⟨re, eps⟩
  | .div => do
    let re ← div x.re y.re
    let eps ← div (← sub x.eps (← mul re y.eps)) y.re
    return ⟨re, eps⟩
  | .pow => power x y

/-- The unary operations on dual numbers. -/
def unary (op : Unary) (x : Dual T) : m (Dual T) :=
  match op with
  | .neg => return ⟨← neg x.re, ← neg x.eps⟩
  | .recip => do
    let inv ← recip x.re
    chain x inv (← neg (← mul inv inv))
  | .sqrt => do
    let root ← Arith.unary .sqrt x.re
    let two : T ← add one one
    chain x root (← recip (← mul two root))
  | .exp => do
    let e ← Arith.unary .exp x.re
    chain x e e
  | .ln => do chain x (← Arith.unary .ln x.re) (← recip x.re)
  | .sin => do chain x (← Arith.unary .sin x.re) (← Arith.unary .cos x.re)
  | .cos => do chain x (← Arith.unary .cos x.re) (← neg (← Arith.unary .sin x.re))
  | .tan => do
    let t ← Arith.unary .tan x.re
    chain x t (← add one (← mul t t))
  | .sinh => do chain x (← Arith.unary .sinh x.re) (← Arith.unary .cosh x.re)
  | .cosh => do chain x (← Arith.unary .cosh x.re) (← Arith.unary .sinh x.re)
  | .tanh => do
    let t ← Arith.unary .tanh x.re
    chain x t (← sub one (← mul t t))

variable [MonadExceptOf Failure m]

/-- Integer powers.  The power zero is the constant one. -/
def powi (x : Dual T) (n : Int32) : m (Dual T) :=
  if n = 0 then pure (constant one)
  else do chain x (← Arith.powi x.re n) (← Derivative.powi x.re n)

instance : Arith m (Dual T) where
  binary := binary
  unary := unary
  powi := powi

/-- The text of a dual number names both parts. -/
instance [Display T] : Display (Dual T) where
  display x := Display.display x.re ++ " + " ++ Display.display x.eps ++ "ε"

end Dual

end LoopDiff
