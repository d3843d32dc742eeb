import LoopDiff.Proofs.Library.Compile

/-!
# LoopDiff.Proofs.Library.Recompile

Compiling a model into a library that has symbols.

A compilation binds symbols of its model and looks at none, so what it binds
does not depend on the library (`Model.Binds`).  What a library has after it
is what a library of its own would have got, and what was there before
wherever the compilation binds nothing.

If it succeeds it replaces the symbols that the options ask for, and those
alone (`Model.compileInto_of_ok`): the other symbols of an older model of the
same name stay.  If it fails it has replaced what was assembled by then, the
metadata at least, and nothing that the options do not ask for
(`Model.compileInto_of_error`).  Only a compilation that leaves nothing out
makes the library load the model as a library of its own would
(`Model.model_of_compileInto`).
-/

namespace LoopDiff

variable {σ F : Type}

/-! ## Libraries of a model -/

/-- The library `lib'` has the symbols `bound` of a model, and those of `lib`
under all other names. -/
structure Library.Overlays (lib' lib : Library σ F) (model : String)
    (bound : Role → Option (Symbol σ F)) : Prop where
  role (r : Role) : lib'[symbolName model r]? = (bound r).or lib[symbolName model r]?
  other {name : String} : (∀ r, name ≠ symbolName model r) → lib'[name]? = lib[name]?

namespace Library.Overlays

variable {lib lib' lib'' : Library σ F} {model : String} {bound bound' : Role → Option (Symbol σ F)}

theorem refl (lib : Library σ F) (model : String) : Overlays lib lib model fun _ => none :=
  ⟨fun _ => rfl, fun _ => rfl⟩

theorem trans (h : lib'.Overlays lib model bound) (h' : lib''.Overlays lib' model bound') :
    lib''.Overlays lib model fun r => (bound' r).or (bound r) :=
  ⟨fun r => by rw [h'.role, h.role, Option.or_assoc], fun ne => (h'.other ne).trans (h.other ne)⟩

theorem insert (lib : Library σ F) (model : String) (r : Role) (s : Symbol σ F) :
    Overlays (lib.insert (symbolName model r) s) lib model
      fun r' => if r' = r then some s else none := by
  refine ⟨fun r' => ?_, fun ne => ?_⟩
  · rw [Std.TreeMap.getElem?_insert]
    by_cases eq : r' = r
    · subst eq
      rw [if_pos Std.ReflCmp.compare_self, if_pos rfl, Option.some_or]
    · rw [if_neg fun h => eq (symbolName_inj.mp (Std.compare_eq_iff_eq.mp h)).symm, if_neg eq,
        Option.none_or]
  · rw [Std.TreeMap.getElem?_insert, if_neg fun h => ne r (Std.compare_eq_iff_eq.mp h).symm]

end Library.Overlays

/-! ## Compilation -/

namespace CompileOptions

/-- The symbols that a compilation with these options is to bind. -/
def asksFor (options : CompileOptions) : Role → Bool
  | .info => true
  | .forwardZero => options.forwardZero
  | .jacobianSparsity | .sparseJacobian => options.sparseJacobian
  | .hessianSparsity | .sparseHessian => options.sparseHessian

end CompileOptions

namespace Model

/-- A computation that binds symbols of a model whatever there is in the
library: those of some `roles`, and all of these if it succeeds. -/
def Binds (model : String) (roles : Role → Bool)
    (c : ExceptT Failure (StateM (Library σ F)) Unit) : Prop :=
  ∃ (result : Except Failure Unit) (bound : Role → Option (Symbol σ F)),
    (∀ r, (bound r).isSome = true → roles r = true) ∧
    (result = .ok () → ∀ r, (bound r).isSome = roles r) ∧
    ∀ lib, ∃ lib', c.run.run lib = (result, lib') ∧ lib'.Overlays lib model bound

variable {model : String} {roles roles' : Role → Bool}

theorem binds_pure : Binds model (fun _ => false)
    (pure () : ExceptT Failure (StateM (Library σ F)) Unit) :=
  ⟨.ok (), fun _ => none, fun r h => by simp at h, fun _ r => rfl,
    fun lib => ⟨lib, rfl, .refl lib model⟩⟩

/-- Nothing is bound after a failure. -/
theorem binds_lift_bind {α : Type} {c : Except Failure α}
    {f : α → ExceptT Failure (StateM (Library σ F)) Unit} (hf : ∀ x, Binds model roles (f x)) :
    Binds model roles ((liftM c : ExceptT Failure (StateM (Library σ F)) α) >>= f) := by
  cases c with
  | error e =>
      exact ⟨.error e, fun _ => none, fun r h => by simp at h, nofun,
        fun lib => ⟨lib, rfl, .refl lib model⟩⟩
  | ok x => exact hf x

theorem Binds.bind {c d : ExceptT Failure (StateM (Library σ F)) Unit}
    (hc : Binds model roles c) (hd : Binds model roles' d) :
    Binds model (fun r => roles r || roles' r) (c >>= fun _ => d) := by
  obtain ⟨result, bound, some_roles, all_roles, run⟩ := hc
  obtain ⟨result', bound', some_roles', all_roles', run'⟩ := hd
  cases result with
  | error e =>
      refine ⟨.error e, bound, fun r h => Bool.or_eq_true_iff.mpr (.inl (some_roles r h)),
        nofun, fun lib => ?_⟩
      obtain ⟨lib', first, overlays⟩ := run lib
      exact ⟨lib', by rw [ExceptT.run_bind, StateT.run_bind, first]; rfl, overlays⟩
  | ok _ =>
      refine ⟨result', fun r => (bound' r).or (bound r), fun r h => ?_, fun ok r => ?_,
        fun lib => ?_⟩
      · rw [Option.isSome_or, Bool.or_eq_true] at h
        rw [Bool.or_eq_true]
        exact h.symm.imp (some_roles r) (some_roles' r)
      · rw [Option.isSome_or, all_roles' ok, all_roles rfl, Bool.or_comm]
      · obtain ⟨lib', first, overlays⟩ := run lib
        obtain ⟨lib'', second, overlays'⟩ := run' lib'
        exact ⟨lib'', by rw [ExceptT.run_bind, StateT.run_bind, first]; exact second,
          overlays.trans overlays'⟩

theorem Binds.congr {c : ExceptT Failure (StateM (Library σ F)) Unit}
    (h : Binds model roles c) (eq : ∀ r, roles r = roles' r) : Binds model roles' c :=
  funext eq ▸ h

/-- A part that is left out unless it is asked for. -/
theorem Binds.guarded {c : ExceptT Failure (StateM (Library σ F)) Unit}
    (h : Binds model roles c) (asked : Bool) :
    Binds model (fun r => asked && roles r) (if asked then c else pure ()) := by
  cases asked with
  | true => exact h.congr fun r => (Bool.true_and _).symm
  | false => exact binds_pure.congr fun r => (Bool.false_and _).symm

theorem binds_bind (m : Model F) (r : Role) (s : Symbol σ F) :
    Binds m.name (fun r' => decide (r' = r)) (m.bind r s) := by
  refine ⟨.ok (), fun r' => if r' = r then some s else none, fun r' h => ?_, fun _ r' => ?_,
    fun lib => ⟨_, rfl, .insert lib m.name r s⟩⟩
  · simpa using h
  · by_cases eq : r' = r <;> simp [eq]

variable [Scalar F] (m : Model F) (options : CompileOptions)

/-- The functions and layouts that the options ask for are bound after the
metadata. -/
theorem binds_parts : Binds (σ := σ) m.name (fun r => options.asksFor r && decide (r ≠ .info)) (do
    m.compileForward options
    m.compileJacobian options
    m.compileHessian options) := by
  have forward : Binds (σ := σ) m.name (fun r => options.forwardZero && decide (r = .forwardZero))
      (m.compileForward options) :=
    (binds_lift_bind fun f => m.binds_bind ..).guarded _
  have jacobian : Binds (σ := σ) m.name
      (fun r => options.sparseJacobian && (decide (r = .jacobianSparsity) ||
        decide (r = .sparseJacobian))) (m.compileJacobian options) :=
    (binds_lift_bind fun layout => binds_lift_bind fun f =>
      (m.binds_bind ..).bind (m.binds_bind ..)).guarded _
  have hessian : Binds (σ := σ) m.name
      (fun r => options.sparseHessian && (decide (r = .hessianSparsity) ||
        decide (r = .sparseHessian))) (m.compileHessian options) :=
    (binds_lift_bind fun layout => binds_lift_bind fun f =>
      (m.binds_bind ..).bind (m.binds_bind ..)).guarded _
  refine (forward.bind (jacobian.bind hessian)).congr fun r => ?_
  cases r <;> simp [CompileOptions.asksFor]

/-- A compilation binds what the options ask for. -/
theorem binds_compileInto : Binds (σ := σ) m.name options.asksFor (m.compileInto options) := by
  refine ((m.binds_bind .info _).bind (m.binds_parts options)).congr fun r => ?_
  cases r <;> simp [CompileOptions.asksFor]

/-- The metadata is replaced first, and whatever happens afterwards. -/
theorem info_of_compileInto (lib : Library σ F) :
    ((m.compileInto options).run.run lib).2[symbolName m.name .info]? = some (.info m.info) := by
  obtain ⟨result, bound, others, -, run⟩ := m.binds_parts (σ := σ) options
  obtain ⟨lib', parts, overlays⟩ := run (lib.insert (symbolName m.name .info) (.info m.info))
  have all : (m.compileInto options).run.run lib = (result, lib') := parts
  have unbound : bound .info = none :=
    Option.not_isSome_iff_eq_none.mp fun h => by simpa using others .info h
  rw [all, overlays.role, unbound, Option.none_or, Std.TreeMap.getElem?_insert_self]

/-- What a library has after a compilation is what a library of its own would
have, and what was there before where that one has nothing. -/
theorem compileInto_overlays (lib : Library σ F) :
    ∃ (result : Except Failure Unit) (fresh lib' : Library σ F),
      (m.compileInto options).run.run ∅ = (result, fresh) ∧
      (m.compileInto options).run.run lib = (result, lib') ∧
      lib'.Overlays lib m.name (fun r => fresh[symbolName m.name r]?) ∧
      (∀ r, fresh[symbolName m.name r]?.isSome = true → options.asksFor r = true) ∧
      (result = .ok () → ∀ r, fresh[symbolName m.name r]?.isSome = options.asksFor r) := by
  obtain ⟨result, bound, some_roles, all_roles, run⟩ := m.binds_compileInto (σ := σ) options
  obtain ⟨fresh, first, overlays⟩ := run ∅
  obtain ⟨lib', second, overlays'⟩ := run lib
  have same (r : Role) : fresh[symbolName m.name r]? = bound r := by
    rw [overlays.role, Std.TreeMap.getElem?_emptyc, Option.or_none]
  refine ⟨result, fresh, lib', first, second, ?_, fun r => ?_, fun ok r => ?_⟩
  · simpa only [same] using overlays'
  · rw [same]
    exact some_roles r
  · rw [same]
    exact all_roles ok r

variable {m options} {lib lib' : Library σ F}

/-- A compilation that succeeds replaces the symbols that the options ask for
by those of a library of its own.  The other symbols of the model stay. -/
theorem compileInto_of_ok (run : (m.compileInto options).run.run lib = (.ok (), lib')) :
    ∃ fresh, m.compile options = .ok fresh ∧
      (∀ r, lib'[symbolName m.name r]? = if options.asksFor r then fresh[symbolName m.name r]?
        else lib[symbolName m.name r]?) ∧
      ∀ name, (∀ r, name ≠ symbolName m.name r) → lib'[name]? = lib[name]? := by
  obtain ⟨result, fresh, lib'', first, second, overlays, -, all⟩ :=
    m.compileInto_overlays options lib
  cases run.symm.trans second
  refine ⟨fresh, by rw [compile, first], fun r => ?_, fun name => overlays.other⟩
  rw [overlays.role]
  cases asked : options.asksFor r with
  | true =>
      obtain ⟨s, hs⟩ := Option.isSome_iff_exists.mp ((all rfl r).trans asked)
      rw [hs, Option.some_or, if_pos rfl]
  | false =>
      have none : fresh[symbolName m.name r]? = none :=
        Option.not_isSome_iff_eq_none.mp (by rw [all rfl r, asked]; exact Bool.false_ne_true)
      rw [none, Option.none_or, if_neg Bool.false_ne_true]

/-- A compilation that fails is one that fails for a library of its own.  It
leaves alone what the options do not ask for, but not the metadata. -/
theorem compileInto_of_error {e : Failure}
    (run : (m.compileInto options).run.run lib = (.error e, lib')) :
    m.compile (σ := σ) options = .error e ∧
      lib'[symbolName m.name .info]? = some (.info m.info) ∧
      (∀ r, options.asksFor r = false →
        lib'[symbolName m.name r]? = lib[symbolName m.name r]?) ∧
      ∀ name, (∀ r, name ≠ symbolName m.name r) → lib'[name]? = lib[name]? := by
  obtain ⟨result, fresh, lib'', first, second, overlays, only, -⟩ :=
    m.compileInto_overlays options lib
  cases run.symm.trans second
  refine ⟨by rw [compile, first], ?_, fun r asked => ?_, fun name => overlays.other⟩
  · have info := m.info_of_compileInto options lib
    rwa [run] at info
  · have none : fresh[symbolName m.name r]? = none :=
      Option.not_isSome_iff_eq_none.mp fun h => Bool.false_ne_true (asked.symm.trans (only r h))
    rw [overlays.role, none, Option.none_or]

/-- A library loads a model by its symbols alone. -/
theorem model_eq_of_symbols {name : String}
    (same : ∀ r, lib'[symbolName name r]? = lib[symbolName name r]?) :
    lib'.model name = lib.model name := by
  simp only [Library.model, Library.function?, Library.layout?, same]

/-- After a compilation that leaves nothing out the model is loaded as from a
library of its own. -/
theorem model_of_compileInto (full : ∀ r, options.asksFor r = true)
    (run : (m.compileInto options).run.run lib = (.ok (), lib')) :
    ∃ fresh, m.compile options = .ok fresh ∧ lib'.model m.name = fresh.model m.name := by
  obtain ⟨fresh, compiled, symbols, -⟩ := compileInto_of_ok run
  refine ⟨fresh, compiled, model_eq_of_symbols fun r => ?_⟩
  rw [symbols, if_pos (full r)]

end Model

end LoopDiff
