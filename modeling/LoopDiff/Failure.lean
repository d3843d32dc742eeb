import LoopDiff.Graph.Kind

/-!
# LoopDiff.Failure

What can go wrong, and how it is said.

Every failure names its cause; the wording is given once, by `message`.
Causes that concern the structure of a graph, of a loop or of a whole
model form types of their own.

A failure is either *reported*, when an operation checks its input and
refuses it, or a *crash*, when an input breaks a promise that nobody
checks: an index past the end of an array, a node without the arguments
its kind requires, a table too large to exist.  An operator on recorded
values has no way to report, so the cause that it would report becomes the
cause of its crash.
-/

namespace LoopDiff

/-- Buffers whose size is prescribed. -/
inductive Buffer where
  | tapeInput
  | tapeOutput
  | tapeValues
  | outerTapeInput
  | outerTapeOutput
  | loopTapeInput
  | loopTapeOutput
  | iterationIndices
  | independents
  | dependents
  | weights
  | jacobianValues
  | hessianValues
  | outputs
  | sparsityColumns
deriving DecidableEq, Repr

def Buffer.label : Buffer → String
  | tapeInput => "tape input"
  | tapeOutput => "tape output"
  | tapeValues => "tape value buffer"
  | outerTapeInput => "non-loop tape input"
  | outerTapeOutput => "non-loop tape output"
  | loopTapeInput => "loop tape input"
  | loopTapeOutput => "loop tape output"
  | iterationIndices => "per-iteration index"
  | independents => "independent"
  | dependents => "dependent"
  | weights => "weight"
  | jacobianValues => "jacobian nnz"
  | hessianValues => "hessian nnz"
  | outputs => "output"
  | sparsityColumns => "sparsity column"

/-- Faults in the structure of a graph.  Nodes are named by their index. -/
inductive GraphFault where
  | notAppendable (kind : Kind) (node : Nat)
  | cycle (node target : Nat)
  | missingInput (position array : Nat)
  | outsideLoop (node : Nat)
  | dependsOnItself (node : Nat)
  | operandMissing (operand node : Nat)
  | notEvaluated (node : Nat)
  | noValue (kind : Kind) (node : Nat)
  | noIndex (pattern iteration : Nat)
  | loopWithoutStart
  | notLoopResult (kind : Kind) (node : Nat)
  | notBranchResult (kind : Kind) (node : Nat)
  | resultWithoutValue
  | resultWithoutBranch
  | notBranch (kind : Kind) (node : Nat)
  | branchWithoutCondition
  | branchesWithoutEnd
  | tapeInputKind (node : Nat) (kind : Kind)
  | strayIndependent (node : Nat)
deriving DecidableEq, Repr

def GraphFault.message : GraphFault → String
  | notAppendable kind node => s!"arguments cannot be appended to {kind.label} node {node}"
  | cycle node target => s!"appending node {node} to node {target} would create a cycle"
  | missingInput position array => s!"input {position} of array {array} is not provided"
  | outsideLoop node => s!"node {node} is evaluated outside of a loop"
  | dependsOnItself node => s!"node {node} depends on itself"
  | operandMissing operand node => s!"operand {operand} of node {node} is not evaluated"
  | notEvaluated node => s!"node {node} was not evaluated"
  | noValue kind node => s!"{kind.label} node {node} does not produce a value"
  | noIndex pattern iteration =>
    s!"index pattern {pattern} has no index for iteration {iteration}"
  | loopWithoutStart => "loop end without loop start"
  | notLoopResult kind node => s!"{kind.label} node {node} cannot be a loop result"
  | notBranchResult kind node => s!"{kind.label} node {node} found in a branch chain"
  | resultWithoutValue => "conditional result without value"
  | resultWithoutBranch => "conditional result without branch"
  | notBranch kind node => s!"{kind.label} node {node} is not a branch"
  | branchWithoutCondition => "branch without condition"
  | branchesWithoutEnd => "conditional contribution without an end-if node"
  | tapeInputKind node kind => s!"tape input {node} is a {kind.label} node"
  | strayIndependent node => s!"independent node {node} is not a tape input"

/-- Faults in the description of a loop. -/
inductive LoopFault where
  | noIterations (loop : Nat)
  | repeatedDependent (dependent loop : Nat)
  | outsideDomain (loop independent domain : Nat)
  | unknownTemporary (loop temporary count : Nat)
deriving DecidableEq, Repr

def LoopFault.message : LoopFault → String
  | noIterations loop => s!"loop {loop} has no iterations"
  | repeatedDependent dependent loop =>
    s!"dependent {dependent} is written more than once by loop {loop}"
  | outsideDomain loop independent domain =>
    s!"loop {loop} reads independent {independent} outside the domain {domain}"
  | unknownTemporary loop temporary count =>
    s!"loop {loop} reads temporary {temporary} but only {count} exist"

/-- Faults in a model, in what is requested of it, or in the symbols it is
loaded from. -/
inductive ModelFault where
  | emptyShape (model : String) (domain range : Nat)
  | listedTwice (dependent : Nat)
  | computedTwice (dependent : Nat)
  | outsideRange (dependent range : Nat)
  | neverComputed (dependent : Nat) (model : String)
  | repeatedElement (row col : Nat)
  | elementOutside (what : String) (row col rows cols : Nat)
  | notFunction (symbol : String)
  | notSparsity (symbol : String)
  | wrongShape (symbol : String) (rows cols expectedRows expectedCols : Nat)
  | positionOutside (symbol : String) (row col : Nat)
  | stated (text : String)
deriving DecidableEq, Repr

def ModelFault.message : ModelFault → String
  | emptyShape model domain range => s!"model '{model}' has domain {domain} and range {range}"
  | listedTwice dependent => s!"dependent {dependent} is listed twice outside loops"
  | computedTwice dependent => s!"dependent {dependent} is computed twice"
  | outsideRange dependent range => s!"dependent {dependent} is outside the range {range}"
  | neverComputed dependent model => s!"dependent {dependent} of model '{model}' is never computed"
  | repeatedElement row col => s!"jacobian element ({row}, {col}) is requested twice"
  | elementOutside what row col rows cols =>
    s!"custom {what} element ({row}, {col}) is outside {rows}x{cols}"
  | notFunction symbol => s!"symbol '{symbol}' is not a function"
  | notSparsity symbol => s!"symbol '{symbol}' is not a sparsity"
  | wrongShape symbol rows cols expectedRows expectedCols =>
    s!"'{symbol}' is {rows}x{cols}, expected {expectedRows}x{expectedCols}"
  | positionOutside symbol row col => s!"'{symbol}' holds ({row}, {col}) out of bounds"
  | stated text => text

/-- Why an operation refuses its input. -/
inductive Error where
  | arenaMismatch (left right : Nat)
  | staleHandle (arena node : Nat)
  | noActiveArena
  | sizeMismatch (what : Buffer) (expected actual : Nat)
  | missingEntryPoint (symbol : String)
  | incompleteLibrary (model present missing : String)
  | typeMismatch (model expected found : String)
  | repeatedHessianElement (row col : Nat)
  | conflictingClaims (pair : Nat × Nat) (iteration first second : Nat)
  | incompletePartition (covered expected : Nat)
  | invalidLoop (fault : LoopFault)
  | invalidModel (fault : ModelFault)
  | invalidGraph (fault : GraphFault)
  | loopNodeInTape
deriving DecidableEq, Repr

def Error.message : Error → String
  | arenaMismatch left right => s!"operands belong to different arenas ({left} and {right})"
  | staleHandle arena node => s!"node {node} of arena {arena} is used outside its recording session"
  | noActiveArena => "no active arena on this thread"
  | sizeMismatch what expected actual =>
    s!"invalid {what.label} size: expected {expected}, got {actual}"
  | missingEntryPoint symbol => s!"entry point '{symbol}' is not available"
  | incompleteLibrary model present missing =>
    s!"model '{model}' provides '{present}' but not '{missing}'"
  | typeMismatch model expected found =>
    s!"model '{model}' was compiled for '{found}', requested '{expected}'"
  | repeatedHessianElement row col =>
    s!"repeated hessian element requested for original pair ({row}, {col})"
  | conflictingClaims pair iteration first second =>
    s!"conflicting claims for iteration {iteration} of tape pair ({pair.1}, {pair.2}): "
      ++ s!"locations {first} and {second}"
  | incompletePartition covered expected =>
    s!"iteration partition covers {covered} of {expected} iterations"
  | invalidLoop fault => "invalid loop: " ++ fault.message
  | invalidModel fault => "invalid model: " ++ fault.message
  | invalidGraph fault => "invalid graph: " ++ fault.message
  | loopNodeInTape => "operation loop or branch node in a tape cannot be used here"

/-- How a computation fails. -/
inductive Failure where
  /-- The operation refuses its input. -/
  | error (cause : Error)
  /-- A promise that nobody checks is broken; operators name the cause. -/
  | crash (cause : Option Error)
deriving DecidableEq, Repr

namespace Failure

/-- The same failure out of an operation that cannot report. -/
def toCrash : Failure → Failure
  | error cause => crash (some cause)
  | crash cause => crash cause

end Failure

/-- Fails with a reported error. -/
def refuse {m : Type → Type} [MonadExceptOf Failure m] {α : Type} (cause : Error) : m α :=
  throw (.error cause)

/-- The value that must be there. -/
def present {m : Type → Type} [Monad m] [MonadExceptOf Failure m] {α : Type} : Option α → m α
  | some x => pure x
  | none => throw (.crash none)

/-- Fails unless a size is the prescribed one. -/
def checkSize {m : Type → Type} [Monad m] [MonadExceptOf Failure m]
    (what : Buffer) (expected actual : Nat) : m Unit :=
  if expected = actual then pure () else refuse (.sizeMismatch what expected actual)

/-- Fails unless a table of `count` entries can be addressed: at `width`
bytes an entry it has to fit into half of a 64-bit address space. -/
def checkExtent {m : Type → Type} [Monad m] [MonadExceptOf Failure m] (width count : Nat) :
    m Unit :=
  if width * count < 0x8000000000000000 then pure () else throw (.crash none)

end LoopDiff
