import LoopDiff.Sparsity
import LoopDiff.Scalar
import LoopDiff.Text.Quoted
import Std.Data.TreeMap

/-!
# LoopDiff.Library.Basic

Libraries of compiled models.

A library binds names to symbols: the metadata of a model, the layout of a
compressed matrix, or a function.  The symbols of a model have the name of
the model followed by an underscore and the role of the symbol.

A function reads input arrays and fills an output buffer.  Compiled
functions are pure, but a library also takes functions from elsewhere, and
these may have effects on an environment of type `σ`.
-/

namespace LoopDiff

open Std

/-- Computations with effects on an environment. -/
abbrev Effect (σ : Type) := ExceptT Failure (StateM σ)

/-- A function of a library: input arrays and the buffer to fill, with the
filled buffer as result. -/
abbrev EntryPoint (σ F : Type) := List (List F) → List F → Effect σ (List F)

/-- A buffer of zeros, at eight bytes a number. -/
def zeroBuffer [Scalar F] (n : Nat) : Except Failure (List F) := do
  checkExtent 8 n
  return List.replicate n Scalar.zero

/-- What is known of a model before its functions are called. -/
structure ModelInfo where
  name : String
  domain : Nat
  range : Nat
  /-- The name of the number type the model was compiled for. -/
  baseType : String
deriving DecidableEq, Repr

/-- A library entry. -/
inductive Symbol (σ F : Type) where
  | info (info : ModelInfo)
  | sparsity (layout : Sparsity)
  | function (f : EntryPoint σ F)

/-! ## Names -/

/-- What a symbol of a model is for. -/
inductive Role where
  | info
  | forwardZero
  | jacobianSparsity
  | sparseJacobian
  | hessianSparsity
  | sparseHessian
deriving DecidableEq, Repr

def Role.label : Role → String
  | info => "info"
  | forwardZero => "forward_zero"
  | jacobianSparsity => "jacobian_sparsity"
  | sparseJacobian => "sparse_jacobian"
  | hessianSparsity => "hessian_sparsity"
  | sparseHessian => "sparse_hessian"

/-- The name of a symbol of a model. -/
def symbolName (model : String) (role : Role) : String := model ++ "_" ++ role.label

/-! ## Listings -/

def ModelInfo.describe (info : ModelInfo) : String :=
  "ModelInfo \x7b name: " ++ quoted info.name ++ ", domain: " ++ toString info.domain
    ++ ", range: " ++ toString info.range ++ ", base_type: " ++ quoted info.baseType ++ " \x7d"

def Symbol.describe {σ F : Type} : Symbol σ F → String
  | info i => "Info(" ++ i.describe ++ ")"
  | sparsity s => "Sparsity(" ++ toString s.size ++ ")"
  | function _ => "Function"

/-! ## Libraries -/

/-- Symbols by name. -/
abbrev Library (σ F : Type) := TreeMap String (Symbol σ F)

namespace Library

variable {σ F : Type}

/-- Binds every symbol of `other`; its bindings win. -/
def merge (lib other : Library σ F) : Library σ F :=
  other.foldl (fun lib name symbol => lib.insert name symbol) lib

/-- The names of the models with metadata, in the order of the symbols. -/
def modelNames (lib : Library σ F) : List String :=
  lib.toList.filterMap fun
    | (_, .info info) => some info.name
    | _ => none

end Library

end LoopDiff
