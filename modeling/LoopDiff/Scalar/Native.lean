import LoopDiff.Scalar
import LoopDiff.Decimal.Shortest

/-!
# LoopDiff.Scalar.Native

The two floating types as base number types.

A number is given by its bits (`Double`, `Single`), so two numbers are the
same exactly when their bits are.  On numbers proper both types follow one
scheme: the four operations and the square root are correctly rounded, the
reciprocal is a division, integer powers are formed by repeated squaring
and inverted last for a negative exponent, and the remaining functions are
those of the platform's mathematical library.

Values that are not numbers come in many bit patterns, and an operation
says which one it gives (`Floating`): the operand that is not a number,
made quiet, and of two such operands the first; an operation that is
invalid on numbers gives the one value `invalid`.

The text of a number is the shortest decimal that reads back as the
number, written without an exponent.
-/

namespace LoopDiff

/-! ## Values that are not numbers -/

/-- A binary floating type.  `onNumber` and `onNumbers` are the operations on
numbers proper; the other operations extend them to all values. -/
class Floating (T : Type) where
  zero : T
  one : T
  isNaN : T → Bool
  /-- A value that is not a number and has not been made quiet. -/
  isSignaling : T → Bool
  isNegative : T → Bool
  /-- The quiet value with the same sign and payload. -/
  quiet : T → T
  /-- The value with the other sign. -/
  negate : T → T
  isZero : T → Bool
  isOne : T → Bool
  /-- Whether a number is an odd integer. -/
  isOdd : T → Bool
  onNumber : Unary → T → T
  onNumbers : Binary → T → T → T

namespace Floating

variable {T : Type} [Floating T]

/-- A binary operation other than the power. -/
def combine (op : Binary) (x y : T) : T :=
  if isNaN x then quiet x
  else if isNaN y then quiet y
  else onNumbers op x y

/-- A power.  The power zero, and every power of one, is one even if the
other operand is not a number, unless that operand signals.  An odd power
of a negative operand that is not a number has the other sign. -/
def power (x y : T) : T :=
  if isZero y then if isSignaling x then quiet x else one
  else if isOne x then if isSignaling y then quiet y else one
  else if isNaN x && isNegative x && !isNaN y && isOdd y then negate (quiet x)
  else combine .pow x y

def binary : Binary → T → T → T
  | .pow => power
  | op => combine op

/-- A unary operation.  Negation changes the sign bit and nothing else. -/
def unary (op : Unary) (x : T) : T :=
  match op with
  | .neg => negate x
  | op => if isNaN x then quiet x else onNumber op x

/-- An integer power; a negative one inverts the positive power. -/
def powi (x : T) (n : Int32) : T :=
  let r := powBits (combine .mul) one x n.toInt.natAbs
  if n < 0 then combine .div one r else r

end Floating

/-! ## Double precision -/

/-- A double-precision number. -/
structure Double where
  bits : UInt64
deriving DecidableEq, Repr

namespace Double

def toFloat (x : Double) : Float := Float.ofBits x.bits

/-- The result of an invalid operation. -/
def invalid : Double := ⟨0xfff8000000000000⟩

/-- The result of an operation on numbers. -/
def ofFloat (x : Float) : Double := if x.isNaN then invalid else ⟨x.toBits⟩

def isNaN (x : Double) : Bool := 0x7ff0000000000000 < x.bits &&& 0x7fffffffffffffff

def isQuiet (x : Double) : Bool := x.bits &&& 0x0008000000000000 != 0

def isFinite (x : Double) : Bool := x.bits &&& 0x7ff0000000000000 != 0x7ff0000000000000

def onNumber (op : Unary) (x : Double) : Double :=
  let f : Float → Float := match op with
    | .neg => (- ·)
    | .recip => (1.0 / ·)
    | .sqrt => Float.sqrt
    | .exp => Float.exp
    | .ln => Float.log
    | .sin => Float.sin
    | .cos => Float.cos
    | .tan => Float.tan
    | .sinh => Float.sinh
    | .cosh => Float.cosh
    | .tanh => Float.tanh
  ofFloat (f x.toFloat)

def onNumbers (op : Binary) (x y : Double) : Double :=
  let f : Float → Float → Float := match op with
    | .add => (· + ·)
    | .sub => (· - ·)
    | .mul => (· * ·)
    | .div => (· / ·)
    | .pow => Float.pow
  ofFloat (f x.toFloat y.toFloat)

/-- An odd integer is an integer whose half is not. -/
def isOdd (x : Double) : Bool :=
  let x := x.toFloat
  x.floor == x && (x / 2.0).floor != x / 2.0

instance : Floating Double where
  zero := ⟨0⟩
  one := ⟨0x3ff0000000000000⟩
  isNaN := isNaN
  isSignaling x := x.isNaN && !x.isQuiet
  isNegative x := x.bits &&& 0x8000000000000000 != 0
  quiet x := ⟨x.bits ||| 0x0008000000000000⟩
  negate x := ⟨x.bits ^^^ 0x8000000000000000⟩
  isZero x := x.toFloat == 0.0
  isOne x := x.toFloat == 1.0
  isOdd := isOdd
  onNumber := onNumber
  onNumbers := onNumbers

end Double

instance : Scalar Double where
  zero := Floating.zero
  one := Floating.one
  ofInt n := Double.ofFloat (Float.ofInt n)
  binary := Floating.binary
  unary := Floating.unary
  powi := Floating.powi
  isZero := Floating.isZero
  isOne := Floating.isOne
  same x y := x == y
  typeName := "f64"

/-! ## Single precision -/

/-- A single-precision number. -/
structure Single where
  bits : UInt32
deriving DecidableEq, Repr

namespace Single

def toFloat (x : Single) : Float32 := Float32.ofBits x.bits

/-- The result of an invalid operation. -/
def invalid : Single := ⟨0xffc00000⟩

/-- The result of an operation on numbers. -/
def ofFloat (x : Float32) : Single := if x.isNaN then invalid else ⟨x.toBits⟩

def isNaN (x : Single) : Bool := 0x7f800000 < x.bits &&& 0x7fffffff

def isQuiet (x : Single) : Bool := x.bits &&& 0x00400000 != 0

def isFinite (x : Single) : Bool := x.bits &&& 0x7f800000 != 0x7f800000

def onNumber (op : Unary) (x : Single) : Single :=
  let f : Float32 → Float32 := match op with
    | .neg => (- ·)
    | .recip => (1.0 / ·)
    | .sqrt => Float32.sqrt
    | .exp => Float32.exp
    | .ln => Float32.log
    | .sin => Float32.sin
    | .cos => Float32.cos
    | .tan => Float32.tan
    | .sinh => Float32.sinh
    | .cosh => Float32.cosh
    | .tanh => Float32.tanh
  ofFloat (f x.toFloat)

def onNumbers (op : Binary) (x y : Single) : Single :=
  let f : Float32 → Float32 → Float32 := match op with
    | .add => (· + ·)
    | .sub => (· - ·)
    | .mul => (· * ·)
    | .div => (· / ·)
    | .pow => Float32.pow
  ofFloat (f x.toFloat y.toFloat)

@[inherit_doc Double.isOdd]
def isOdd (x : Single) : Bool :=
  let x := x.toFloat
  x.floor == x && (x / 2.0).floor != x / 2.0

/-- The single-precision number nearest to a double-precision one. -/
def ofDouble (x : Double) : Single := ofFloat x.toFloat.toFloat32

instance : Floating Single where
  zero := ⟨0⟩
  one := ⟨0x3f800000⟩
  isNaN := isNaN
  isSignaling x := x.isNaN && !x.isQuiet
  isNegative x := x.bits &&& 0x80000000 != 0
  quiet x := ⟨x.bits ||| 0x00400000⟩
  negate x := ⟨x.bits ^^^ 0x80000000⟩
  isZero x := x.toFloat == 0.0
  isOne x := x.toFloat == 1.0
  isOdd := isOdd
  onNumber := onNumber
  onNumbers := onNumbers

end Single

instance : Scalar Single where
  zero := Floating.zero
  one := Floating.one
  ofInt n := Single.ofFloat (Float32.ofInt n)
  binary := Floating.binary
  unary := Floating.unary
  powi := Floating.powi
  isZero := Floating.isZero
  isOne := Floating.isOne
  same x y := x == y
  typeName := "f32"

/-! ## Text -/

/-- An interchange format: a sign bit, `exponentBits` bits of exponent and
`fractionBits` bits of fraction. -/
structure Interchange where
  exponentBits : Nat
  fractionBits : Nat

namespace Interchange

def double : Interchange := ⟨11, 52⟩

def single : Interchange := ⟨8, 23⟩

/-- The number with the given exponent and fraction fields.  The least
exponent field is shared by the subnormal numbers, whose leading bit is
zero, and by the first normal binade; a power of two above that has the
smaller step below it. -/
def source (f : Interchange) (exponent fraction : Nat) : Decimal.Source where
  mantissa := if exponent = 0 then fraction else Nat.pow 2 f.fractionBits + fraction
  exponent := (max exponent 1 : Int) - (Nat.pow 2 (f.exponentBits - 1) - 1 + f.fractionBits : Nat)
  halfBelow := fraction = 0 ∧ 1 < exponent

/-- The text of the number with the given bits. -/
def text (f : Interchange) (bits : Nat) : String :=
  let fraction := bits % Nat.pow 2 f.fractionBits
  let exponent := bits / Nat.pow 2 f.fractionBits % Nat.pow 2 f.exponentBits
  let sign := if bits.testBit (f.exponentBits + f.fractionBits) then "-" else ""
  if exponent = Nat.pow 2 f.exponentBits - 1 then
    if fraction = 0 then sign ++ "inf" else "NaN"
  else if exponent = 0 ∧ fraction = 0 then sign ++ "0"
  else sign ++ (f.source exponent fraction).shortest.positional

end Interchange

instance : Display Double where
  display x := Interchange.double.text x.bits.toNat

instance : Display Single where
  display x := Interchange.single.text x.bits.toNat

end LoopDiff
