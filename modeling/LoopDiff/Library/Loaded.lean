import LoopDiff.Library.Basic

/-!
# LoopDiff.Library.Loaded

Models loaded from a library.

Loading checks what a caller relies on: the number type, the kinds of the
symbols, and the layouts, whose positions must lie within the matrices of
the model.  A compressed derivative needs its layout, but each function may
be missing altogether.

A loaded model calls its functions only with arrays and buffers of the
right sizes.
-/

namespace LoopDiff

open Std

variable {σ F : Type}

/-- A model that was loaded from a library. -/
structure LoadedModel (σ F : Type) where
  info : ModelInfo
  forwardZero? : Option (EntryPoint σ F)
  jacobianSparsity? : Option Sparsity
  sparseJacobian? : Option (EntryPoint σ F)
  hessianSparsity? : Option Sparsity
  sparseHessian? : Option (EntryPoint σ F)

/-! ## Loading -/

namespace Library

/-- The function bound to a name. -/
def function? (lib : Library σ F) (name : String) : Except Failure (Option (EntryPoint σ F)) :=
  match lib[name]? with
  | none => .ok none
  | some (.function f) => .ok (some f)
  | some _ => refuse (.invalidModel (.notFunction name))

/-- Fails unless a layout fits a matrix. -/
def checkLayout (name : String) (s : Sparsity) (rows cols : Nat) : Except Failure Unit := do
  checkSize .sparsityColumns s.rows.length s.cols.length
  if s.rowCount ≠ rows || s.colCount ≠ cols then
    refuse (.invalidModel (.wrongShape name s.rowCount s.colCount rows cols))
  match s.entries.find? fun e => rows ≤ e.1 || cols ≤ e.2 with
  | some e => refuse (.invalidModel (.positionOutside name e.1 e.2))
  | none => return ()

/-- The layout bound to a name. -/
def layout? (lib : Library σ F) (name : String) (rows cols : Nat) :
    Except Failure (Option Sparsity) :=
  match lib[name]? with
  | none => .ok none
  | some (.sparsity s) => do
    checkLayout name s rows cols
    return some s
  | some _ => refuse (.invalidModel (.notSparsity name))

/-- Fails if there is a function for compressed values but no layout. -/
def checkComplete (model : String) (function sparsity : Role) (f : Option (EntryPoint σ F))
    (s : Option Sparsity) : Except Failure Unit :=
  if f.isSome && s.isNone then
    refuse (.incompleteLibrary model (symbolName model function) (symbolName model sparsity))
  else .ok ()

/-- Loads a model. -/
def model [Scalar F] (lib : Library σ F) (name : String) : Except Failure (LoadedModel σ F) := do
  let info ← match lib[symbolName name .info]? with
    | some (.info info) => pure info
    | _ => refuse (.missingEntryPoint (symbolName name .info))
  if info.baseType ≠ Scalar.typeName F then
    refuse (.typeMismatch name (Scalar.typeName F) info.baseType)
  if info.domain = 0 || info.range = 0 then
    refuse (.invalidModel (.emptyShape name info.domain info.range))
  let forwardZero? ← lib.function? (symbolName name .forwardZero)
  let jacobianSparsity? ← lib.layout? (symbolName name .jacobianSparsity) info.range info.domain
  let sparseJacobian? ← lib.function? (symbolName name .sparseJacobian)
  let hessianSparsity? ← lib.layout? (symbolName name .hessianSparsity) info.domain info.domain
  let sparseHessian? ← lib.function? (symbolName name .sparseHessian)
  checkComplete name .sparseJacobian .jacobianSparsity sparseJacobian? jacobianSparsity?
  checkComplete name .sparseHessian .hessianSparsity sparseHessian? hessianSparsity?
  return { info, forwardZero?, jacobianSparsity?, sparseJacobian?, hessianSparsity?,
           sparseHessian? }

end Library

/-! ## Calls -/

namespace LoadedModel

variable (m : LoadedModel σ F)

/-- The part of the model with a given role. -/
def require {α : Type} (part : Option α) (role : Role) : Except Failure α :=
  match part with
  | some x => .ok x
  | none => refuse (.missingEntryPoint (symbolName m.info.name role))

/-- The layout of the Jacobian. -/
def jacobianSparsity : Except Failure Sparsity := m.require m.jacobianSparsity? .jacobianSparsity

/-- The layout of the Hessian. -/
def hessianSparsity : Except Failure Sparsity := m.require m.hessianSparsity? .hessianSparsity

/-- Fills `y` with the dependents at `x`. -/
def forwardZero (x y : List F) : Effect σ (List F) := do
  let f ← m.require m.forwardZero? .forwardZero
  checkSize .independents m.info.domain x.length
  checkSize .dependents m.info.range y.length
  f [x] y

/-- Fills `values` with the compressed Jacobian at `x`. -/
def sparseJacobian (x values : List F) : Effect σ (List F) := do
  let f ← m.require m.sparseJacobian? .sparseJacobian
  let layout ← m.jacobianSparsity
  checkSize .independents m.info.domain x.length
  checkSize .jacobianValues layout.size values.length
  f [x] values

/-- Fills `values` with the compressed Hessian at `x`, weighted with `w`. -/
def sparseHessian (x w values : List F) : Effect σ (List F) := do
  let f ← m.require m.sparseHessian? .sparseHessian
  let layout ← m.hessianSparsity
  checkSize .independents m.info.domain x.length
  checkSize .weights m.info.range w.length
  checkSize .hessianValues layout.size values.length
  f [x, w] values

/-! ## Dense matrices -/

/-- A matrix by rows. -/
abbrev Dense (F : Type) := Array (Array F)

/-- Sets an element of a dense matrix. -/
def Dense.set (dense : Dense F) (row col : Nat) (v : F) : Except Failure (Dense F) :=
  match dense[row]? with
  | some r =>
    if col < r.size then .ok (dense.modify row fun r => r.setIfInBounds col v)
    else .error (.crash none)
  | none => .error (.crash none)

/-- The matrix as a list of rows. -/
def Dense.toLists (dense : Dense F) : List (List F) := dense.toList.map Array.toList

variable [Scalar F]

/-- The matrix of zeros, with a table of rows at 24 bytes a row. -/
def Dense.zero (rows cols : Nat) : Except Failure (Dense F) := do
  checkExtent 24 rows
  return Array.replicate rows (Array.replicate cols Scalar.zero)

/-- The Jacobian at `x`. -/
def jacobian (x : List F) : Effect σ (List (List F)) := do
  let layout ← m.jacobianSparsity
  let values ← m.sparseJacobian x (← zeroBuffer layout.size)
  let dense ← Dense.zero m.info.range m.info.domain
  let dense ← (layout.entries.zip values).foldlM (fun dense ((r, c), v) =>
    (dense.set r c v : Except Failure _)) dense
  return dense.toLists

/-- The Hessian at `x`, weighted with `w`.  An element that is not in the
layout has the value of its transpose. -/
def hessian (x w : List F) : Effect σ (List (List F)) := do
  let layout ← m.hessianSparsity
  let values ← m.sparseHessian x w (← zeroBuffer layout.size)
  let listed : PairSet := TreeSet.ofList layout.entries
  let dense ← Dense.zero m.info.domain m.info.domain
  let dense ← (layout.entries.zip values).foldlM (fun dense ((r, c), v) => do
    let dense ← (dense.set r c v : Except Failure _)
    if listed.contains (c, r) then return dense
    else (dense.set c r v : Except Failure _)) dense
  return dense.toLists

/-- A listing of the model: its metadata, and the functions it has. -/
def describe : String :=
  "LibraryModel \x7b info: " ++ m.info.describe
    ++ ", forward_zero: " ++ toString m.forwardZero?.isSome
    ++ ", sparse_jacobian: " ++ toString m.sparseJacobian?.isSome
    ++ ", sparse_hessian: " ++ toString m.sparseHessian?.isSome ++ " \x7d"

end LoadedModel

end LoopDiff
