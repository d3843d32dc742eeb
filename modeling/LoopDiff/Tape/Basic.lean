import LoopDiff.Arith
import LoopDiff.Failure

/-!
# LoopDiff.Tape.Basic

Tapes: straight-line programs that can be run on any kind of value.

A tape is a list of entries.  Each entry computes one value from the
values of earlier entries, named by their positions; the inputs come
first and in order.  Nothing is evaluated when a tape is built, and the
positions an entry names are not checked before the tape is run.

A binary entry may lack its right operand, which then reads as zero, and
a unary entry may carry a second position, which is read and ignored.
Neither arises from recording a function; both can be written by hand.
-/

namespace LoopDiff

/-- One step of a tape. -/
inductive Entry (F : Type) where
  | input
  | const (x : F)
  | powi (arg : Nat) (exponent : Int32)
  | unary (op : Unary) (arg : Nat) (second : Option Nat)
  | binary (op : Binary) (left : Nat) (right : Option Nat)
deriving Repr

/-- A straight-line program with `inputCount` inputs; `outputs` are the
positions of the entries it returns. -/
structure Tape (F : Type) where
  entries : Array (Entry F)
  inputCount : Nat
  outputs : List Nat
deriving Repr

namespace Entry

variable {F : Type}

/-- The positions whose values the result depends on. -/
def args : Entry F → List Nat
  | input | const _ => []
  | powi arg _ => [arg]
  | unary _ arg _ => [arg]
  | binary _ left right => left :: right.toList

end Entry

namespace Tape

variable {F : Type}

/-- A tape without entries. -/
def empty : Tape F := ⟨#[], 0, []⟩

/-- Number of entries. -/
def size (t : Tape F) : Nat := t.entries.size

def outputCount (t : Tape F) : Nat := t.outputs.length

/-- Adds an entry at the end. -/
def push (t : Tape F) (e : Entry F) : Tape F := { t with entries := t.entries.push e }

/-- Adds an input.  Inputs come before every other entry. -/
def pushInput (t : Tape F) : Except Failure (Tape F) :=
  if t.inputCount = t.size then .ok { t.push .input with inputCount := t.inputCount + 1 }
  else .error (.crash none)

/-- Adds an integer power and gives its position.  The first power is the
argument itself, and the power `-1` a reciprocal. -/
def pushPowi (t : Tape F) (arg : Nat) (exponent : Int32) : Nat × Tape F :=
  if exponent = 1 then (arg, t)
  else if exponent = -1 then (t.size, t.push (.unary .recip arg none))
  else (t.size, t.push (.powi arg exponent))

/-- Fails unless there is one value for every input. -/
def checkInputs {m : Type → Type} [Monad m] [MonadExceptOf Failure m] (t : Tape F) (n : Nat) :
    m Unit :=
  checkSize .tapeInput t.inputCount n

/-- Fails unless there is one value for every output. -/
def checkOutputs {m : Type → Type} [Monad m] [MonadExceptOf Failure m] (t : Tape F) (n : Nat) :
    m Unit :=
  checkSize .tapeOutput t.outputCount n

end Tape

end LoopDiff
