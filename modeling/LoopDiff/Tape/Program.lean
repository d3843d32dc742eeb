import LoopDiff.Tape.Lowering

/-!
# LoopDiff.Tape.Program

Functions written as data: instructions over registers.

The first registers hold the inputs.  Every instruction adds a register,
but for an assignment, which gives an existing register a new value.  A
register that does not exist breaks the program.
-/

namespace LoopDiff

/-- A step of a program.  Operands are registers. -/
inductive Instruction (F : Type) where
  | const (x : F)
  | powi (arg : Nat) (exponent : Int32)
  | unary (op : Unary) (arg : Nat)
  | binary (op : Binary) (left right : Nat)
  /-- Replaces the value of `slot`. -/
  | assign (op : Compound) (slot arg : Nat)
deriving Repr

/-- A function of `inputCount` values. -/
structure Program (F : Type) where
  inputCount : Nat
  code : List (Instruction F)
  outputs : List Nat
deriving Repr

variable {F : Type} [Scalar F]

/-- Runs one instruction. -/
def Instruction.run (registers : Array (Value F)) :
    Instruction F → Recording F (Array (Value F))
  | .const x => return registers.push (.const x)
  | .powi a n => do
    return registers.push (← Recording.powi (← present registers[a]?) n)
  | .unary op a => do
    return registers.push (← Recording.unary (.unary op) (← present registers[a]?))
  | .binary op a b => do
    let x ← present registers[a]?
    let y ← present registers[b]?
    return registers.push (← Recording.binary (.binary op) x y)
  | .assign op a b => do
    let y ← present registers[b]?
    let x ← present registers[a]?
    return registers.setIfInBounds a (← Recording.compound op x y)

namespace Program

/-- The outputs for the given inputs. -/
def run (p : Program F) (inputs : List (Value F)) : Recording F (List (Value F)) := do
  let registers ← p.code.foldlM Instruction.run inputs.toArray
  p.outputs.mapM fun o => present registers[o]?

/-- The tape of a program, recorded in an arena of its own. -/
def tape (p : Program F) (arena : Nat) : Except Failure (Tape F) :=
  Tape.record arena p.inputCount p.run

end Program

end LoopDiff
