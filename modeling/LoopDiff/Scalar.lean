import LoopDiff.OpCode

/-!
# LoopDiff.Scalar

The numbers underneath every computation.

`Scalar` lists what a base number type must offer: the elementary
operations, the numbers zero and one and the integers, and two tests.
`same` is the test under which two embedded constants count as one
constant; it is finer than numeric equality (the two zeros of a floating
type are numerically equal and are not the same).

No law is assumed here.  Floating types satisfy few, and a statement in
exact arithmetic names the laws that it needs.
-/

namespace LoopDiff

/-- A base number type. -/
class Scalar (F : Type) where
  zero : F
  one : F
  ofInt : Int → F
  binary : Binary → F → F → F
  unary : Unary → F → F
  powi : F → Int32 → F
  /-- Numeric equality with zero. -/
  isZero : F → Bool
  /-- Numeric equality with one. -/
  isOne : F → Bool
  /-- Whether two constants are interchangeable in a recorded graph. -/
  same : F → F → Bool
  /-- The name of the type in compiled model metadata. -/
  typeName : String

/-- Types whose values have a text form. -/
class Display (T : Type) where
  display : T → String

/-! ## Integer powers by repeated squaring -/

/-- Multiplies into `acc` the powers `x ^ (2 ^ k)` selected by the bits of
`n`, lowest bit first.  The square after the last set bit is never
formed. -/
def powBits {F : Type} (mul : F → F → F) (acc x : F) (n : Nat) : F :=
  let acc := if n % 2 = 1 then mul acc x else acc
  if n / 2 = 0 then acc else powBits mul acc (mul x x) (n / 2)
termination_by n
decreasing_by omega

end LoopDiff
