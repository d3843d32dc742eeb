import LoopDiff.OpCode

/-!
# LoopDiff.Graph.Kind

The kinds of node a graph is made of.

Value nodes compute a number from their arguments.  Loop nodes delimit a
loop body and connect it to the arrays it reads and the locations it
writes.  Branch nodes select, by iteration, which writes of a loop body
take place.

| kind            | arguments                                  | info                 |
|-----------------|--------------------------------------------|----------------------|
| `independent`   |                                            | array, position      |
| `assign`        | value                                      |                      |
| `op`            | operands                                   | exponent of a power  |
| `compound`      | old value, operand                         |                      |
| `synonym`       | value                                      |                      |
| `accumulate`    | values and loop ends                       | location             |
| `loopStart`     |                                            | loop, iterations     |
| `loopEnd`       | loop start, results                        |                      |
| `iteration`     | loop start                                 |                      |
| `indexedRead`   | iteration                                  | array, pattern       |
| `indexedWrite`  | value, iteration                           | pattern, 1 to add    |
| `condition`     | iteration                                  | inclusive ranges     |
| `startIf`       | condition, results so far                  |                      |
| `elseIf`        | start, condition, results so far           |                      |
| `otherwise`     | start, results so far                      |                      |
| `endIf`         | results of the last branch                 |                      |
| `branchResult`  | branch, write                              |                      |
-/

namespace LoopDiff

/-- Operators that replace the value of a slot. -/
inductive Compound where
  | add | sub | mul | div
deriving DecidableEq, Repr

/-- The operation that gives the new value. -/
def Compound.toBinary : Compound → Binary
  | add => .add
  | sub => .sub
  | mul => .mul
  | div => .div

/-- All operators. -/
def Compound.all : List Compound := [add, sub, mul, div]

/-- The kind of a recorded node. -/
inductive Kind where
  | independent
  | assign
  | op (code : OpCode)
  | compound (op : Compound)
  | synonym
  | accumulate
  | loopStart
  | loopEnd
  | iteration
  | indexedRead
  | indexedWrite
  | condition
  | startIf
  | elseIf
  | otherwise
  | endIf
  | branchResult
deriving DecidableEq, Repr

namespace Kind

/-- Whether a node of this kind may receive arguments after its creation:
accumulations collect loops, branch nodes collect results. -/
def isAppendable : Kind → Bool
  | accumulate | startIf | elseIf | otherwise | endIf => true
  | _ => false

/-- The name of a kind in messages and listings.  An elementary operation
is named with its operation. -/
def label : Kind → String
  | independent => "Independent"
  | assign => "Assign"
  | op code => "Op(" ++ code.label ++ ")"
  | compound .add => "PlusAssign"
  | compound .sub => "MinusAssign"
  | compound .mul => "MultAssign"
  | compound .div => "DivAssign"
  | synonym => "Alias"
  | accumulate => "DependentMultiAssign"
  | loopStart => "LoopStart"
  | loopEnd => "LoopEnd"
  | iteration => "Index"
  | indexedRead => "LoopIndexedIndep"
  | indexedWrite => "LoopIndexedDep"
  | condition => "IndexCondExpr"
  | startIf => "StartIf"
  | elseIf => "ElseIf"
  | otherwise => "Else"
  | endIf => "EndIf"
  | branchResult => "CondResult"

/-- All kinds but the elementary operations. -/
def structural : List Kind :=
  [independent, assign, synonym, accumulate, loopStart, loopEnd, iteration, indexedRead,
    indexedWrite, condition, startIf, elseIf, otherwise, endIf, branchResult]
    ++ Compound.all.map compound

/-- The kind, other than an elementary operation, of a given name. -/
def ofLabel? (name : String) : Option Kind :=
  structural.find? fun k => k.label == name

end Kind

end LoopDiff
