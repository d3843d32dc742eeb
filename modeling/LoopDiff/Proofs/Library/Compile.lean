import LoopDiff.Library.Loaded
import LoopDiff.Proofs.Assembly.Hessian
import LoopDiff.Proofs.Assembly.Jacobian
import LoopDiff.Proofs.Library.Layouts

/-!
# LoopDiff.Proofs.Library.Compile

What is in a library after a compilation.

A model is compiled to a few parts (`Parts`): graphs, and the elements of the
compressed matrices.  If they can be made, the compilation succeeds, and the
library has, under the name of each role, the symbol that the parts give to
it (`Parts.Of.compile_eq`).
-/

namespace LoopDiff

variable {σ F : Type}

/-! ## Names -/

theorem symbolName_inj {model : String} {r r' : Role} :
    symbolName model r = symbolName model r' ↔ r = r' := by
  refine ⟨fun eq => ?_, congrArg _⟩
  have label : r.label = r'.label := by simpa [symbolName] using eq
  cases r <;> cases r' <;> first | rfl | exact absurd label (by decide)

/-- What a library has under the names of a model. -/
def Library.Provides (lib : Library σ F) (model : String) (f : Role → Option (Symbol σ F)) : Prop :=
  ∀ role, lib[symbolName model role]? = f role

theorem Library.Provides.insert {lib : Library σ F} {model : String}
    {f : Role → Option (Symbol σ F)} (h : lib.Provides model f) (role : Role) (s : Symbol σ F) :
    Provides (lib.insert (symbolName model role) s) model (Function.update f role (some s)) := by
  intro role'
  rw [Std.TreeMap.getElem?_insert, Function.update_apply, h role']
  exact if_congr (Std.compare_eq_iff_eq.trans (symbolName_inj.trans eq_comm)) rfl rfl

/-! ## Parts -/

/-- A graph of `n` outputs that evaluates on all input arrays of the given
sizes. -/
def Compiled.Evaluates [Scalar F] (c : Compiled F) (sizes : List Nat) (n : Nat) : Prop :=
  c.outputs.length = n ∧ ∀ inputs : List (List F), inputs.map List.length = sizes →
    ∃ ys, c.arena.evaluate c.outputs inputs = .ok ys ∧ ys.length = n

/-- What a model is compiled to. -/
structure Parts (F : Type) where
  forward : Compiled F
  jacobianElements : List (Nat × Nat)
  jacobian : Compiled F
  hessianElements : List (Nat × Nat)
  hessian : Compiled F

namespace Parts

variable (p : Parts F) (m : Model F) (options : CompileOptions)

def jacobianLayout : Sparsity := .ofEntries m.range m.domain p.jacobianElements

def hessianLayout : Sparsity := .ofEntries m.domain m.domain p.hessianElements

@[simp] theorem entries_jacobianLayout : (p.jacobianLayout m).entries = p.jacobianElements :=
  Sparsity.entries_ofEntries ..

@[simp] theorem entries_hessianLayout : (p.hessianLayout m).entries = p.hessianElements :=
  Sparsity.entries_ofEntries ..

@[simp] theorem size_jacobianLayout : (p.jacobianLayout m).size = p.jacobianElements.length :=
  Sparsity.size_ofEntries ..

@[simp] theorem size_hessianLayout : (p.hessianLayout m).size = p.hessianElements.length :=
  Sparsity.size_ofEntries ..

variable [Scalar F]

/-- The model that a library with the parts that are asked for has. -/
def loaded : LoadedModel σ F where
  info := m.info
  forwardZero? := if options.forwardZero then some p.forward.entryPoint else none
  jacobianSparsity? := if options.sparseJacobian then some (p.jacobianLayout m) else none
  sparseJacobian? := if options.sparseJacobian then some p.jacobian.entryPoint else none
  hessianSparsity? := if options.sparseHessian then some (p.hessianLayout m) else none
  sparseHessian? := if options.sparseHessian then some p.hessian.entryPoint else none

/-- The symbol of a role, if it is asked for. -/
def symbol? : Role → Option (Symbol σ F)
  | .info => some (.info m.info)
  | .forwardZero => (p.loaded m options).forwardZero?.map .function
  | .jacobianSparsity => (p.loaded (σ := σ) m options).jacobianSparsity?.map .sparsity
  | .sparseJacobian => (p.loaded m options).sparseJacobian?.map .function
  | .hessianSparsity => (p.loaded (σ := σ) m options).hessianSparsity?.map .sparsity
  | .sparseHessian => (p.loaded m options).sparseHessian?.map .function

/-- The parts that a model is compiled to. -/
structure Of (p : Parts F) (m : Model F) (options : CompileOptions) : Prop where
  forward : m.assemble false Assembly.forward = .ok p.forward
  jacobianLayout : m.jacobianLayoutFor options.jacobianElements = .ok (p.jacobianLayout m)
  jacobian : m.assemble false (fun asm => asm.jacobian p.jacobianElements) = .ok p.jacobian
  hessianLayout : m.hessianLayoutFor options.hessianElements = .ok (p.hessianLayout m)
  hessian : m.assemble true (fun asm => asm.hessian p.hessianElements) = .ok p.hessian

end Parts

/-! ## Compilation -/

section

variable [Scalar F] {m : Model F} {lib : Library σ F} {f : Role → Option (Symbol σ F)}

omit [Scalar F] in
theorem Model.ends_bind (provides : lib.Provides m.name f) (role : Role) (s : Symbol σ F) :
    Ends (m.bind role s) lib fun _ lib' => lib'.Provides m.name (Function.update f role (some s)) :=
  ⟨(), _, rfl, provides.insert role s⟩

namespace Parts.Of

variable {p : Parts F} {options : CompileOptions} (parts : p.Of m options)
  (provides : lib.Provides m.name f)

include parts provides

theorem ends_compileForward : Ends (m.compileForward options) lib fun _ lib' =>
    lib'.Provides m.name (if options.forwardZero then
      Function.update f .forwardZero (some (.function p.forward.entryPoint)) else f) := by
  rw [Model.compileForward]
  split
  case isTrue => exact ends_lift_bind parts.forward (Model.ends_bind provides ..)
  case isFalse => exact ends_pure provides

theorem ends_compileJacobian : Ends (m.compileJacobian options) lib fun _ lib' =>
    lib'.Provides m.name (if options.sparseJacobian then
      Function.update (Function.update f .jacobianSparsity (some (.sparsity (p.jacobianLayout m))))
        .sparseJacobian (some (.function p.jacobian.entryPoint)) else f) := by
  rw [Model.compileJacobian]
  split
  case isTrue =>
      refine ends_lift_bind parts.jacobianLayout ?_
      rw [entries_jacobianLayout]
      refine ends_lift_bind parts.jacobian ?_
      exact (Model.ends_bind provides ..).bind fun _ _ h => Model.ends_bind h ..
  case isFalse => exact ends_pure provides

theorem ends_compileHessian : Ends (m.compileHessian options) lib fun _ lib' =>
    lib'.Provides m.name (if options.sparseHessian then
      Function.update (Function.update f .hessianSparsity (some (.sparsity (p.hessianLayout m))))
        .sparseHessian (some (.function p.hessian.entryPoint)) else f) := by
  rw [Model.compileHessian]
  split
  case isTrue =>
      refine ends_lift_bind parts.hessianLayout ?_
      rw [entries_hessianLayout]
      refine ends_lift_bind parts.hessian ?_
      exact (Model.ends_bind provides ..).bind fun _ _ h => Model.ends_bind h ..
  case isFalse => exact ends_pure provides

omit provides in
/-- A compilation gives the symbols of its parts. -/
theorem compile_eq : ∃ lib : Library σ F, m.compile options = .ok lib ∧
    lib.Provides m.name (p.symbol? m options) := by
  have start : (∅ : Library σ F).Provides m.name fun _ => none := fun role => by simp
  have ends : Ends (m.compileInto options) (∅ : Library σ F) fun _ lib =>
      lib.Provides m.name (p.symbol? m options) := by
    rw [Model.compileInto]
    refine (Model.ends_bind start ..).bind fun _ _ h => ?_
    refine (parts.ends_compileForward h).bind fun _ _ h => ?_
    refine (parts.ends_compileJacobian h).bind fun _ _ h => ?_
    refine (parts.ends_compileHessian h).mono fun _ lib h role => (h role).trans ?_
    cases role <;> simp only [symbol?, loaded] <;> split_ifs <;> rfl
  obtain ⟨⟨⟩, lib, run, provides⟩ := ends
  refine ⟨lib, ?_, provides⟩
  rw [Model.compile, run]

end Parts.Of

end

/-! ## Compilations that succeeded -/

section

variable {α β : Type} {lib lib' : Library σ F}

theorem run_bind_eq_ok {c : ExceptT Failure (StateM (Library σ F)) α}
    {f : α → ExceptT Failure (StateM (Library σ F)) β} {y : β}
    (h : (c >>= f).run.run lib = (.ok y, lib')) :
    ∃ x lib₁, c.run.run lib = (.ok x, lib₁) ∧ (f x).run.run lib₁ = (.ok y, lib') := by
  rw [ExceptT.run_bind, StateT.run_bind] at h
  cases first : c.run.run lib with
  | mk r lib₁ =>
      rw [first] at h
      cases r with
      | error e => cases h
      | ok x => exact ⟨x, lib₁, rfl, h⟩

theorem run_lift_bind_eq_ok {c : Except Failure α}
    {f : α → ExceptT Failure (StateM (Library σ F)) β} {y : β}
    (h : ((liftM c : ExceptT Failure (StateM (Library σ F)) α) >>= f).run.run lib = (.ok y, lib')) :
    ∃ x, c = .ok x ∧ (f x).run.run lib = (.ok y, lib') := by
  cases c with
  | error e => cases h
  | ok x => exact ⟨x, rfl, h⟩

variable [Scalar F] {m : Model F}

/-- A compilation of everything that succeeded has made all parts. -/
theorem Model.assembled_of_compile (compiled : m.compile {} = .ok lib) :
    (∃ f, m.assemble false Assembly.forward = .ok f) ∧
    (∃ layout f, m.jacobianLayoutFor none = .ok layout ∧
      m.assemble false (fun asm => asm.jacobian layout.entries) = .ok f) ∧
    ∃ layout f, m.hessianLayoutFor none = .ok layout ∧
      m.assemble true (fun asm => asm.hessian layout.entries) = .ok f := by
  have run : ((m.compileInto {}).run.run (∅ : Library σ F)).1 = .ok () := by
    rw [compile] at compiled
    split at compiled
    case h_1 eq => exact congrArg Prod.fst eq
    case h_2 => cases compiled
  obtain ⟨_, _, -, run⟩ := run_bind_eq_ok (Prod.ext run rfl)
  obtain ⟨_, _, forward, run⟩ := run_bind_eq_ok run
  obtain ⟨_, _, jacobian, hessian⟩ := run_bind_eq_ok run
  obtain ⟨f, forward, -⟩ := run_lift_bind_eq_ok forward
  obtain ⟨js, jacobianLayout, jacobian⟩ := run_lift_bind_eq_ok jacobian
  obtain ⟨g, jacobian, -⟩ := run_lift_bind_eq_ok jacobian
  obtain ⟨hs, hessianLayout, hessian⟩ := run_lift_bind_eq_ok hessian
  obtain ⟨h, hessian, -⟩ := run_lift_bind_eq_ok hessian
  exact ⟨⟨f, forward⟩, ⟨js, g, jacobianLayout, jacobian⟩, ⟨hs, h, hessianLayout, hessian⟩⟩

end

end LoopDiff
