import LoopDiff.Library.Loaded
import LoopDiff.Proofs.Library.Compile

/-!
# LoopDiff.Proofs.Library.Loaded

Loading what was compiled, and calling it.

The library of a compiled model passes every check of the loader, and what
is loaded are the parts of the model (`Parts.Of.model_eq`).  A call with
arrays and buffers of the right sizes evaluates a graph; it is the pure
computation of the values, without effect on the environment.
-/

namespace LoopDiff

variable {σ F : Type}

/-! ## Loading -/

namespace Library

variable {lib : Library σ F} {name : String}

theorem function?_eq {f? : Option (EntryPoint σ F)} (h : lib[name]? = f?.map .function) :
    lib.function? name = .ok f? := by
  rw [function?, h]
  cases f? <;> rfl

theorem checkLayout_eq {rows cols : Nat} {es : List (Nat × Nat)} (h : IsSelection rows cols es) :
    checkLayout name (.ofEntries rows cols es) rows cols = .ok () := by
  have none : (es.find? fun e => rows ≤ e.1 || cols ≤ e.2) = none := by
    refine List.find?_eq_none.mpr fun e he => ?_
    simpa using ⟨h.row_lt he, h.col_lt he⟩
  have sizes : (es.map Prod.fst).length = (es.map Prod.snd).length := by simp
  rw [checkLayout, Sparsity.entries_ofEntries, none, Sparsity.ofEntries, checkSize, if_pos sizes]
  simp only [ne_eq, not_true_eq_false, decide_false]
  rfl

theorem layout?_eq {rows cols : Nat} {s? : Option Sparsity} (h : lib[name]? = s?.map .sparsity)
    (fits : ∀ s, s? = some s → checkLayout name s rows cols = .ok ()) :
    lib.layout? name rows cols = .ok s? := by
  rw [layout?, h]
  cases s? with
  | none => rfl
  | some s => exact bind_of_ok (fits s rfl) _

end Library

/-- A model is loaded from a library that provides its symbols. -/
theorem Parts.model_eq [Scalar F] {p : Parts F} {m : Model F} {options : CompileOptions}
    {lib : Library σ F} (provides : lib.Provides m.name (p.symbol? m options))
    (domain : 0 < m.domain) (range : 0 < m.range)
    (jacobian : IsSelection m.range m.domain p.jacobianElements)
    (hessian : IsSelection m.domain m.domain p.hessianElements) :
    lib.model m.name = .ok (p.loaded m options) := by
  let loaded : LoadedModel σ F := p.loaded m options
  have function (role : Role) (f? : Option (EntryPoint σ F))
      (h : p.symbol? m options role = f?.map .function) :
      lib.function? (symbolName m.name role) = .ok f? :=
    Library.function?_eq ((provides role).trans h)
  have layout (role : Role) (rows cols : Nat) (b : Bool) (es : List (Nat × Nat))
      (selection : IsSelection rows cols es)
      (h : p.symbol? (σ := σ) m options role =
        (if b then some (Sparsity.ofEntries rows cols es) else none).map .sparsity) :
      lib.layout? (symbolName m.name role) rows cols =
        .ok (if b then some (Sparsity.ofEntries rows cols es) else none) := by
    refine Library.layout?_eq ((provides role).trans h) fun s hs => ?_
    cases (Option.ite_none_right_eq_some.mp hs).2
    exact Library.checkLayout_eq selection
  have complete (function sparsity : Role) (b : Bool) (f : EntryPoint σ F) (s : Sparsity) :
      Library.checkComplete m.name function sparsity (if b then some f else none)
        (if b then some s else none) = .ok () := by
    cases b <;> rfl
  rw [Library.model, provides .info]
  simp only [symbol?, Model.info, pure_bind]
  rw [if_neg (not_not.mpr rfl), if_neg (by simpa using ⟨domain.ne', range.ne'⟩),
    bind_of_ok (function .forwardZero loaded.forwardZero? rfl),
    bind_of_ok (layout .jacobianSparsity _ _ _ _ jacobian rfl),
    bind_of_ok (function .sparseJacobian loaded.sparseJacobian? rfl),
    bind_of_ok (layout .hessianSparsity _ _ _ _ hessian rfl),
    bind_of_ok (function .sparseHessian loaded.sparseHessian? rfl)]
  exact (bind_of_ok (complete ..) _).trans (bind_of_ok (complete ..) _)

/-! ## Calls -/

/-- A graph that evaluates is a function without effect. -/
theorem Compiled.entryPoint_eq [Scalar F] {c : Compiled F} {inputs : List (List F)}
    {buffer ys : List F} (length : c.outputs.length = buffer.length)
    (h : c.arena.evaluate c.outputs inputs = .ok ys) :
    (c.entryPoint inputs buffer : Effect σ (List F)) = pure ys := by
  have run : c.run inputs buffer = .ok ys := by
    rw [Compiled.run, checkSize, if_pos length, pure_bind, h]
  rw [entryPoint, run]
  rfl

namespace LoadedModel

variable {m : LoadedModel σ F} {f : EntryPoint σ F} {layout : Sparsity}

theorem forwardZero_eq (hf : m.forwardZero? = some f) {x y : List F}
    (domain : x.length = m.info.domain) (range : y.length = m.info.range) :
    m.forwardZero x y = f [x] y := by
  rw [forwardZero, hf, checkSize, if_pos domain.symm, checkSize, if_pos range.symm]
  rfl

theorem sparseJacobian_eq (hf : m.sparseJacobian? = some f)
    (hs : m.jacobianSparsity? = some layout) {x values : List F}
    (domain : x.length = m.info.domain) (size : values.length = layout.size) :
    m.sparseJacobian x values = f [x] values := by
  rw [sparseJacobian, jacobianSparsity, hf, hs]
  show (do checkSize _ _ _; checkSize _ _ _; f [x] values : Effect σ (List F)) = _
  rw [checkSize, if_pos domain.symm, checkSize, if_pos size.symm]
  rfl

theorem sparseHessian_eq (hf : m.sparseHessian? = some f)
    (hs : m.hessianSparsity? = some layout) {x w values : List F}
    (domain : x.length = m.info.domain) (range : w.length = m.info.range)
    (size : values.length = layout.size) :
    m.sparseHessian x w values = f [x, w] values := by
  rw [sparseHessian, hessianSparsity, hf, hs]
  show (do checkSize _ _ _; checkSize _ _ _; checkSize _ _ _; f [x, w] values :
    Effect σ (List F)) = _
  rw [checkSize, if_pos domain.symm, checkSize, if_pos range.symm, checkSize, if_pos size.symm]
  rfl

end LoadedModel

end LoopDiff
