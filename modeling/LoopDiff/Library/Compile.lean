import LoopDiff.Assembly.Forward
import LoopDiff.Assembly.Jacobian
import LoopDiff.Assembly.Hessian
import LoopDiff.Library.Basic

/-!
# LoopDiff.Library.Compile

Compilation of models into a library.

Each function of a model is a graph of its own, assembled once and
evaluated at every call.  The layouts of the compressed derivatives are
those of the sparsity of the model unless particular elements are asked
for.

Symbols are bound as they are produced, so a compilation that fails part
of the way leaves those it had produced (`compileInto`).
-/

namespace LoopDiff

open Std

/-- What to compile. -/
structure CompileOptions where
  forwardZero : Bool := true
  sparseJacobian : Bool := true
  sparseHessian : Bool := true
  /-- Jacobian elements to compute instead of all that can be nonzero. -/
  jacobianElements : Option (List (Nat × Nat)) := none
  /-- Hessian elements to compute instead of the lower triangle of all that
  can be nonzero. -/
  hessianElements : Option (List (Nat × Nat)) := none
deriving DecidableEq, Repr

/-- A finished graph with its outputs. -/
structure Compiled (F : Type) where
  arena : Arena F
  outputs : List (Value F)

namespace Compiled

variable {F : Type} [Scalar F]

/-- Evaluates the graph into a buffer with room for every output. -/
def run (c : Compiled F) (inputs : List (List F)) (buffer : List F) :
    Except Failure (List F) := do
  checkSize .outputs c.outputs.length buffer.length
  c.arena.evaluate c.outputs inputs

/-- The graph as a function of a library. -/
def entryPoint {σ : Type} (c : Compiled F) : EntryPoint σ F := fun inputs buffer =>
  c.run inputs buffer

end Compiled

namespace Model

variable {F : Type} [Scalar F]

/-- Assembles a graph.  No handle leaves the arena, so every graph can have
the same arena name. -/
def assemble (m : Model F) (weighted : Bool)
    (outputs : Assembly F → Recording F (List (Value F))) : Except Failure (Compiled F) :=
  let recording : Recording F (List (Value F)) := do
    outputs (← Assembly.begin m weighted)
  match recording.runIn (Arena.empty 1) with
  | (.ok outputs, arena) => .ok ⟨arena, outputs⟩
  | (.error e, _) => .error e

/-- Fails unless all elements lie within a matrix. -/
def checkElements (elements : List (Nat × Nat)) (rows cols : Nat) (what : String) :
    Except Failure Unit :=
  match elements.find? fun e => rows ≤ e.1 || cols ≤ e.2 with
  | some e => refuse (.invalidModel (.elementOutside what e.1 e.2 rows cols))
  | none => .ok ()

/-- The layout of the compiled Jacobian. -/
def jacobianLayoutFor (m : Model F) : Option (List (Nat × Nat)) → Except Failure Sparsity
  | some elements => do
    checkElements elements m.range m.domain "jacobian"
    return Sparsity.ofEntries m.range m.domain elements
  | none => m.jacobianLayout

/-- The layout of the compiled Hessian. -/
def hessianLayoutFor (m : Model F) : Option (List (Nat × Nat)) → Except Failure Sparsity
  | some elements => do
    checkElements elements m.domain m.domain "hessian"
    return Sparsity.ofEntries m.domain m.domain elements
  | none => m.hessianLayout

variable {σ : Type}

/-- Binds a symbol of the model. -/
def bind (m : Model F) (role : Role) (symbol : Symbol σ F) :
    ExceptT Failure (StateM (Library σ F)) Unit :=
  modify fun lib => lib.insert (symbolName m.name role) symbol

/-- The metadata of the model. -/
def info (m : Model F) : ModelInfo := ⟨m.name, m.domain, m.range, Scalar.typeName F⟩

/-- Compiles the function for the dependents, if it is asked for. -/
def compileForward (m : Model F) (options : CompileOptions) :
    ExceptT Failure (StateM (Library σ F)) Unit :=
  if options.forwardZero then do
    let f ← m.assemble false Assembly.forward
    m.bind .forwardZero (.function f.entryPoint)
  else return ()

/-- Compiles the Jacobian, if it is asked for. -/
def compileJacobian (m : Model F) (options : CompileOptions) :
    ExceptT Failure (StateM (Library σ F)) Unit :=
  if options.sparseJacobian then do
    let layout ← m.jacobianLayoutFor options.jacobianElements
    let f ← m.assemble false fun asm => asm.jacobian layout.entries
    m.bind .jacobianSparsity (.sparsity layout)
    m.bind .sparseJacobian (.function f.entryPoint)
  else return ()

/-- Compiles the weighted Hessian, if it is asked for. -/
def compileHessian (m : Model F) (options : CompileOptions) :
    ExceptT Failure (StateM (Library σ F)) Unit :=
  if options.sparseHessian then do
    let layout ← m.hessianLayoutFor options.hessianElements
    let f ← m.assemble true fun asm => asm.hessian layout.entries
    m.bind .hessianSparsity (.sparsity layout)
    m.bind .sparseHessian (.function f.entryPoint)
  else return ()

/-- Compiles a model into a library. -/
def compileInto (m : Model F) (options : CompileOptions) :
    ExceptT Failure (StateM (Library σ F)) Unit := do
  m.bind .info (.info m.info)
  m.compileForward options
  m.compileJacobian options
  m.compileHessian options

/-- Compiles a model into a library of its own. -/
def compile (m : Model F) (options : CompileOptions) : Except Failure (Library σ F) :=
  match (m.compileInto options).run.run ∅ with
  | (.ok (), lib) => .ok lib
  | (.error e, _) => .error e

/-- Compiles models into one library; later models win. -/
def compileAll (models : List (Model F)) (options : CompileOptions) :
    Except Failure (Library σ F) := do
  return (← models.mapM fun m => m.compile options).foldl Library.merge ∅

end Model

end LoopDiff
