/-!
# LoopDiff.OpCode

The elementary operations that tapes and graphs are built from.

An operation is an input, a constant, an integer power, or one of two
families: binary operations read two operands, unary operations read one.
Splitting the families in the type means that the arity of an operation
is a matter of its constructor and never of a side table.

An integer power carries its exponent, a signed 32-bit number, outside the
operation.  Where a node can hold naturals only, the exponent is stored as
the 32-bit word with the same bits (`Exponent.encode`), so a negative
exponent becomes a large word and is read back by `Exponent.decode`.
-/

namespace LoopDiff

/-- Operations with two operands. -/
inductive Binary where
  | add | sub | mul | div | pow
deriving DecidableEq, Repr

/-- Operations with one operand. -/
inductive Unary where
  | neg | recip | sqrt
  | exp | ln
  | sin | cos | tan
  | sinh | cosh | tanh
deriving DecidableEq, Repr

/-- An elementary operation. -/
inductive OpCode where
  | input
  | const
  | powi
  | binary (op : Binary)
  | unary (op : Unary)
deriving DecidableEq, Repr

namespace Binary

/-- The name under which an operation appears in messages and listings. -/
def label : Binary → String
  | add => "Add"
  | sub => "Sub"
  | mul => "Mul"
  | div => "Div"
  | pow => "Powf"

/-- All binary operations. -/
def all : List Binary := [add, sub, mul, div, pow]

end Binary

namespace Unary

/-- The name under which an operation appears in messages and listings. -/
def label : Unary → String
  | neg => "Neg"
  | recip => "Recip"
  | sqrt => "Sqrt"
  | exp => "Exp"
  | ln => "Ln"
  | sin => "Sin"
  | cos => "Cos"
  | tan => "Tan"
  | sinh => "Sinh"
  | cosh => "Cosh"
  | tanh => "Tanh"

/-- All unary operations. -/
def all : List Unary := [neg, recip, sqrt, exp, ln, sin, cos, tan, sinh, cosh, tanh]

end Unary

namespace OpCode

/-- Whether the operation reads a second operand. -/
def isBinary : OpCode → Bool
  | binary _ => true
  | _ => false

/-- The name under which an operation appears in messages and listings. -/
def label : OpCode → String
  | input => "Input"
  | const => "Const"
  | powi => "Powi"
  | binary op => op.label
  | unary op => op.label

/-- All operations. -/
def all : List OpCode :=
  [input, const, powi] ++ Binary.all.map binary ++ Unary.all.map unary

/-- The operation of a given name. -/
def ofLabel? (name : String) : Option OpCode :=
  all.find? fun op => op.label == name

end OpCode

/-! ## Exponents of integer powers -/

namespace Exponent

/-- The 32-bit word with the bits of a signed exponent. -/
def encode (n : Int32) : Nat := n.toUInt32.toNat

/-- The signed exponent whose bits are the low 32 bits of a word. -/
def decode (word : Nat) : Int32 := (UInt32.ofNat word).toInt32

/-- Every exponent survives being stored. -/
@[simp]
theorem decode_encode (n : Int32) : decode (encode n) = n := by
  rw [decode, encode, UInt32.ofNat_toNat]
  rfl

end Exponent

end LoopDiff
