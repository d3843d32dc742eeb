import LoopDiff.Proofs.Library.Dense
import LoopDiff.Proofs.Model.Acceptance

/-!
# LoopDiff.Proofs.Library.Guarded

What a model that was loaded does with functions it knows nothing about.

A library can be filled by hand, with functions and layouts that need not
fit together.  Loading is what rules out the rest: the parts of a loaded
model are the symbols under its names, its layouts lie within its matrices,
and no compressed derivative lacks its layout (`Library.Loads`).  So a call
reaches its function only with arrays and a buffer of the right sizes
(`LoadedModel.Guards`), and the dense matrices can be written without a look
at their sizes, whatever values the functions return
(`Library.Loads.jacobian_eq`, `Library.Loads.hessian_eq`).
-/

namespace LoopDiff

variable {σ F : Type}

/-! ## Loading -/

namespace Library

variable {lib : Library σ F} {name : String}

/-- A part that was loaded is the symbol under its name. -/
theorem eq_of_function? {f? : Option (EntryPoint σ F)} (h : lib.function? name = .ok f?) :
    lib[name]? = f?.map .function := by
  rw [function?] at h
  split at h
  case h_1 none =>
      cases h
      exact none
  case h_2 f found =>
      cases h
      exact found
  case h_3 => cases h

theorem inside_of_checkLayout {s : Sparsity} {rows cols : Nat} {x : Unit}
    (h : checkLayout name s rows cols = .ok x) : ∀ e ∈ s.entries, e.1 < rows ∧ e.2 < cols := by
  obtain ⟨_, -, h⟩ := bind_eq_ok h
  cases none : s.entries.find? fun e => rows ≤ e.1 || cols ≤ e.2 with
  | none => simpa using List.find?_eq_none.mp none
  | some e =>
      rw [none] at h
      dsimp only at h
      split at h <;> cases h

theorem eq_of_layout? {s? : Option Sparsity} {rows cols : Nat}
    (h : lib.layout? name rows cols = .ok s?) :
    lib[name]? = s?.map .sparsity ∧ ∀ s, s? = some s → ∀ e ∈ s.entries, e.1 < rows ∧ e.2 < cols := by
  rw [layout?] at h
  split at h
  case h_1 none =>
      cases h
      exact ⟨none, fun s eq => by cases eq⟩
  case h_2 s found =>
      obtain ⟨_, checked, h⟩ := bind_eq_ok h
      cases h
      refine ⟨found, ?_⟩
      rintro _ ⟨⟩
      exact inside_of_checkLayout checked
  case h_3 => cases h

theorem isSome_of_checkComplete {function sparsity : Role} {f? : Option (EntryPoint σ F)}
    {s? : Option Sparsity} {x : Unit} (h : checkComplete name function sparsity f? s? = .ok x)
    (some : f?.isSome = true) : s?.isSome = true := by
  rw [checkComplete, some, Bool.true_and] at h
  cases s? with
  | none => cases h
  | some _ => rfl

/-- The parts of a model are the symbols under its names, and fit together. -/
structure Loads (lib : Library σ F) (name : String) (m : LoadedModel σ F) : Prop where
  info : lib[symbolName name .info]? = some (.info m.info)
  forwardZero : lib[symbolName name .forwardZero]? = m.forwardZero?.map .function
  jacobianSparsity : lib[symbolName name .jacobianSparsity]? = m.jacobianSparsity?.map .sparsity
  sparseJacobian : lib[symbolName name .sparseJacobian]? = m.sparseJacobian?.map .function
  hessianSparsity : lib[symbolName name .hessianSparsity]? = m.hessianSparsity?.map .sparsity
  sparseHessian : lib[symbolName name .sparseHessian]? = m.sparseHessian?.map .function
  jacobianInside {s : Sparsity} : m.jacobianSparsity? = some s →
    ∀ e ∈ s.entries, e.1 < m.info.range ∧ e.2 < m.info.domain
  hessianInside {s : Sparsity} : m.hessianSparsity? = some s →
    ∀ e ∈ s.entries, e.1 < m.info.domain ∧ e.2 < m.info.domain
  jacobianComplete : m.sparseJacobian?.isSome = true → m.jacobianSparsity?.isSome = true
  hessianComplete : m.sparseHessian?.isSome = true → m.hessianSparsity?.isSome = true

theorem loads_of_model [Scalar F] {m : LoadedModel σ F} (h : lib.model name = .ok m) :
    lib.Loads name m := by
  rw [model] at h
  split at h
  case h_2 => cases h
  rename_i info found
  obtain ⟨_, ⟨⟩, h⟩ := bind_eq_ok h
  dsimp only at h
  split at h
  case isTrue => cases h
  split at h
  case isTrue => cases h
  obtain ⟨forwardZero?, forwardZero, h⟩ := bind_eq_ok h
  obtain ⟨jacobianSparsity?, jacobianSparsity, h⟩ := bind_eq_ok h
  obtain ⟨sparseJacobian?, sparseJacobian, h⟩ := bind_eq_ok h
  obtain ⟨hessianSparsity?, hessianSparsity, h⟩ := bind_eq_ok h
  obtain ⟨sparseHessian?, sparseHessian, h⟩ := bind_eq_ok h
  obtain ⟨_, jacobianComplete, h⟩ := bind_eq_ok h
  obtain ⟨_, hessianComplete, h⟩ := bind_eq_ok h
  cases h
  obtain ⟨jacobianSparsity, jacobianInside⟩ := eq_of_layout? jacobianSparsity
  obtain ⟨hessianSparsity, hessianInside⟩ := eq_of_layout? hessianSparsity
  exact ⟨found, eq_of_function? forwardZero, jacobianSparsity, eq_of_function? sparseJacobian,
    hessianSparsity, eq_of_function? sparseHessian, fun {s} => jacobianInside s,
    fun {s} => hessianInside s, isSome_of_checkComplete jacobianComplete,
    isSome_of_checkComplete hessianComplete⟩

end Library

/-! ## Calls -/

/-- A failure that is reported without any effect on the environment, which
may have the buffers of the caller. -/
def Refuses {α : Type} (c : Effect σ α) (cause : Error) : Prop :=
  ∀ env, c.run.run env = (.error (.error cause), env)

/-- A call goes on with `body` if some sizes fit, and refuses them
otherwise. -/
structure Checks {α : Type} (fits : Prop) (body call : Effect σ α) : Prop where
  passes : fits → call = body
  refuses : ¬fits → ∃ what expected actual, expected ≠ actual ∧
    Refuses call (.sizeMismatch what expected actual)

theorem checks_nothing {α : Type} (body : Effect σ α) : Checks True body body :=
  ⟨fun _ => rfl, fun h => absurd trivial h⟩

theorem Checks.size {α : Type} {fits : Prop} {body call : Effect σ α}
    (h : Checks fits body call) (what : Buffer) (expected actual : Nat) :
    Checks (actual = expected ∧ fits) body (do checkSize what expected actual; call) := by
  by_cases eq : expected = actual
  · have pass : (do checkSize what expected actual; call) = call := by
      rw [checkSize, if_pos eq, pure_bind]
    rw [pass]
    exact ⟨fun fits => h.passes fits.2, fun misfit => h.refuses fun fits => misfit ⟨eq.symm, fits⟩⟩
  · refine ⟨fun fits => absurd fits.1.symm eq, fun _ => ⟨what, expected, actual, eq, fun env => ?_⟩⟩
    rw [checkSize, if_neg eq]
    rfl

/-- A call reaches the function that is bound to a name only if the inputs
and the buffer fit. -/
structure Guards (bound? : Option (Symbol σ F)) (missing : String) (fits : Prop)
    (inputs : List (List F)) (buffer : List F) (call : Effect σ (List F)) : Prop where
  unbound : (∀ f, bound? ≠ some (.function f)) → Refuses call (.missingEntryPoint missing)
  bound {f : EntryPoint σ F} : bound? = some (.function f) → Checks fits (f inputs buffer) call

namespace LoadedModel

variable {m : LoadedModel σ F}

theorem require_some {α : Type} (x : α) (role : Role) : m.require (some x) role = .ok x := rfl

theorem guards_require {f? : Option (EntryPoint σ F)} {role : Role} {fits : Prop}
    {inputs : List (List F)} {buffer : List F} {call : EntryPoint σ F → Effect σ (List F)}
    (h : ∀ f, f? = some f → Checks fits (f inputs buffer) (call f)) :
    Guards (f?.map .function) (symbolName m.info.name role) fits inputs buffer
      (do call (← m.require f? role)) := by
  cases f? with
  | none => exact ⟨fun _ _ => rfl, nofun⟩
  | some f =>
      refine ⟨fun unbound => absurd rfl (unbound f), ?_⟩
      rintro _ ⟨⟩
      exact h f rfl

end LoadedModel

namespace Library.Loads

variable {lib : Library σ F} {name : String} {m : LoadedModel σ F} (loads : lib.Loads name m)

include loads

theorem forwardZero_guards (x y : List F) :
    Guards lib[symbolName name .forwardZero]? (symbolName m.info.name .forwardZero)
      (x.length = m.info.domain ∧ y.length = m.info.range) [x] y (m.forwardZero x y) := by
  rw [loads.forwardZero]
  refine LoadedModel.guards_require fun f _ => ?_
  simpa only [and_true] using
    ((checks_nothing (f [x] y)).size .dependents m.info.range y.length).size
      .independents m.info.domain x.length

theorem sparseJacobian_guards (x values : List F) :
    Guards lib[symbolName name .sparseJacobian]? (symbolName m.info.name .sparseJacobian)
      (x.length = m.info.domain ∧ ∃ layout,
        lib[symbolName name .jacobianSparsity]? = some (.sparsity layout) ∧
          values.length = layout.size)
      [x] values (m.sparseJacobian x values) := by
  rw [loads.sparseJacobian, loads.jacobianSparsity]
  refine LoadedModel.guards_require fun f hf => ?_
  obtain ⟨layout, hs⟩ := Option.isSome_iff_exists.mp (loads.jacobianComplete (by rw [hf]; rfl))
  rw [LoadedModel.jacobianSparsity, hs, LoadedModel.liftM_eq_pure (LoadedModel.require_some ..),
    pure_bind]
  simpa only [and_true, Option.map_some, Option.some.injEq, Symbol.sparsity.injEq,
    exists_eq_left'] using
    ((checks_nothing (f [x] values)).size .jacobianValues layout.size values.length).size
      .independents m.info.domain x.length

theorem sparseHessian_guards (x w values : List F) :
    Guards lib[symbolName name .sparseHessian]? (symbolName m.info.name .sparseHessian)
      (x.length = m.info.domain ∧ w.length = m.info.range ∧ ∃ layout,
        lib[symbolName name .hessianSparsity]? = some (.sparsity layout) ∧
          values.length = layout.size)
      [x, w] values (m.sparseHessian x w values) := by
  rw [loads.sparseHessian, loads.hessianSparsity]
  refine LoadedModel.guards_require fun f hf => ?_
  obtain ⟨layout, hs⟩ := Option.isSome_iff_exists.mp (loads.hessianComplete (by rw [hf]; rfl))
  rw [LoadedModel.hessianSparsity, hs, LoadedModel.liftM_eq_pure (LoadedModel.require_some ..),
    pure_bind]
  simpa only [and_true, Option.map_some, Option.some.injEq, Symbol.sparsity.injEq,
    exists_eq_left'] using
    (((checks_nothing (f [x, w] values)).size .hessianValues layout.size
      values.length).size .weights m.info.range w.length).size .independents
        m.info.domain x.length

end Library.Loads

/-! ## Dense matrices -/

section

variable [Scalar F]

/-- Puts a value at a position. -/
def place (D : Nat → Nat → F) (e : (Nat × Nat) × F) : Nat → Nat → F :=
  fun r c => if r = e.1.1 ∧ c = e.1.2 then e.2 else D r c

/-- The matrix with some values at some positions, and zeros elsewhere.  The
last value at a position counts. -/
def scatter (placed : List ((Nat × Nat) × F)) : Nat → Nat → F :=
  placed.foldl place fun _ _ => Scalar.zero

/-- A value with its position, and with the transposed position unless this
is in the layout. -/
def mirrored (entries : List (Nat × Nat)) (e : (Nat × Nat) × F) : List ((Nat × Nat) × F) :=
  if e.1.swap ∈ entries then [e] else [e, (e.1.swap, e.2)]

/-- The rows of a matrix. -/
def rowsOf (rows cols : Nat) (D : Nat → Nat → F) : List (List F) :=
  (List.range rows).map fun r => (List.range cols).map (D r)

omit [Scalar F] in
/-- A fold of steps that are pure on the states of the form `wrap`. -/
theorem foldlM_eq_pure {m : Type → Type} [Monad m] [LawfulMonad m] {α β γ : Type} (wrap : γ → β)
    {f : β → α → m β} {g : γ → α → γ} (xs : List α)
    (h : ∀ x ∈ xs, ∀ c, f (wrap c) x = pure (wrap (g c x))) (c : γ) :
    xs.foldlM f (wrap c) = pure (wrap (xs.foldl g c)) := by
  induction xs generalizing c with
  | nil => rfl
  | cons x xs ih =>
      rw [List.foldlM_cons, h x (List.mem_cons_self ..), pure_bind, List.foldl_cons]
      exact ih (fun x hx => h x (List.mem_cons_of_mem _ hx)) _

namespace Library.Loads

open LoadedModel

variable {lib : Library σ F} {name : String} {m : LoadedModel σ F} (loads : lib.Loads name m)

include loads

/-- The values of the compressed Jacobian have their places in the matrix. -/
theorem jacobian_eq (x : List F) : m.jacobian x = (do
    let layout ← m.jacobianSparsity
    let values ← m.sparseJacobian x (← zeroBuffer layout.size)
    checkExtent 24 m.info.range
    return rowsOf m.info.range m.info.domain (scatter (layout.entries.zip values))) := by
  rw [jacobian, LoadedModel.jacobianSparsity]
  cases hs : m.jacobianSparsity? with
  | none => rfl
  | some layout =>
      rw [liftM_eq_pure (require_some ..), pure_bind, pure_bind]
      refine bind_congr fun buffer => bind_congr fun values => ?_
      by_cases room : 24 * m.info.range < 0x8000000000000000
      · rw [liftM_eq_pure (Dense.zero_eq room), pure_bind, checkExtent, if_pos room, pure_bind]
        have filled := foldlM_eq_pure (m := Effect σ) (g := place)
          (f := fun dense e => liftM (dense.set e.1.1 e.1.2 e.2))
          (Dense.ofFn m.info.range m.info.domain) (layout.entries.zip values) (fun e he D => ?_)
          fun _ _ => Scalar.zero
        · refine (congrArg (· >>= fun dense => pure dense.toLists) filled).trans ?_
          rw [pure_bind, Dense.toLists_ofFn]
          rfl
        · obtain ⟨row, col⟩ := loads.jacobianInside hs _ (List.of_mem_zip he).1
          exact liftM_eq_pure (Dense.set_ofFn row col e.2)
      · rw [Dense.zero, checkExtent, if_neg room, checkExtent, if_neg room]
        rfl

/-- The values of the compressed Hessian and the places of their transposes
are in the matrix. -/
theorem hessian_eq (x w : List F) : m.hessian x w = (do
    let layout ← m.hessianSparsity
    let values ← m.sparseHessian x w (← zeroBuffer layout.size)
    checkExtent 24 m.info.domain
    return rowsOf m.info.domain m.info.domain
      (scatter ((layout.entries.zip values).flatMap (mirrored layout.entries)))) := by
  rw [hessian, LoadedModel.hessianSparsity]
  cases hs : m.hessianSparsity? with
  | none => rfl
  | some layout =>
      rw [liftM_eq_pure (require_some ..), pure_bind, pure_bind]
      refine bind_congr fun buffer => bind_congr fun values => ?_
      by_cases room : 24 * m.info.domain < 0x8000000000000000
      · rw [liftM_eq_pure (Dense.zero_eq room), pure_bind, checkExtent, if_pos room, pure_bind]
        have filled := foldlM_eq_pure (m := Effect σ)
          (g := fun D e => (mirrored layout.entries e).foldl place D)
          (f := fun dense e => do
            let dense ← liftM (dense.set e.1.1 e.1.2 e.2)
            if (Std.TreeSet.ofList layout.entries).contains (e.1.2, e.1.1) then return dense
            else liftM (dense.set e.1.2 e.1.1 e.2))
          (Dense.ofFn m.info.domain m.info.domain) (layout.entries.zip values) (fun e he D => ?_)
          fun _ _ => Scalar.zero
        · refine (congrArg (· >>= fun dense => pure dense.toLists) filled).trans ?_
          rw [pure_bind, Dense.toLists_ofFn, scatter, List.foldl_flatMap]
          rfl
        · obtain ⟨row, col⟩ := loads.hessianInside hs _ (List.of_mem_zip he).1
          rw [liftM_eq_pure (Dense.set_ofFn row col e.2), pure_bind, mirrored]
          have listed : (Std.TreeSet.ofList layout.entries).contains (e.1.2, e.1.1) = true ↔
              e.1.swap ∈ layout.entries := by
            rw [Std.TreeSet.contains_ofList, List.contains_iff_mem]
            rfl
          by_cases mem : e.1.swap ∈ layout.entries
          · rw [if_pos (listed.mpr mem), if_pos mem]
            rfl
          · rw [if_neg (mt listed.mp mem), if_neg mem]
            exact liftM_eq_pure (Dense.set_ofFn col row e.2)
      · rw [Dense.zero, checkExtent, if_neg room, checkExtent, if_neg room]
        rfl

end Library.Loads

/-- What protects the functions of a library and the dense matrices from
sizes that do not fit.  Each call reaches its function only with arrays and
a buffer of the right sizes and is refused otherwise, before it has an
effect.  The dense matrices take no index: they are written from the
positions of the layouts, which are all inside. -/
structure Library.Guarded (lib : Library σ F) (name : String) (m : LoadedModel σ F) : Prop where
  info : lib[symbolName name .info]? = some (.info m.info)
  forwardZero (x y : List F) :
    Guards lib[symbolName name .forwardZero]? (symbolName m.info.name .forwardZero)
      (x.length = m.info.domain ∧ y.length = m.info.range) [x] y (m.forwardZero x y)
  sparseJacobian (x values : List F) :
    Guards lib[symbolName name .sparseJacobian]? (symbolName m.info.name .sparseJacobian)
      (x.length = m.info.domain ∧ ∃ layout,
        lib[symbolName name .jacobianSparsity]? = some (.sparsity layout) ∧
          values.length = layout.size)
      [x] values (m.sparseJacobian x values)
  sparseHessian (x w values : List F) :
    Guards lib[symbolName name .sparseHessian]? (symbolName m.info.name .sparseHessian)
      (x.length = m.info.domain ∧ w.length = m.info.range ∧ ∃ layout,
        lib[symbolName name .hessianSparsity]? = some (.sparsity layout) ∧
          values.length = layout.size)
      [x, w] values (m.sparseHessian x w values)
  jacobianInside {layout : Sparsity} : m.jacobianSparsity = .ok layout →
    ∀ e ∈ layout.entries, e.1 < m.info.range ∧ e.2 < m.info.domain
  jacobian (x : List F) : m.jacobian x = (do
    let layout ← m.jacobianSparsity
    let values ← m.sparseJacobian x (← zeroBuffer layout.size)
    checkExtent 24 m.info.range
    return rowsOf m.info.range m.info.domain (scatter (layout.entries.zip values)))
  hessianInside {layout : Sparsity} : m.hessianSparsity = .ok layout →
    ∀ e ∈ layout.entries, e.1 < m.info.domain ∧ e.2 < m.info.domain
  hessian (x w : List F) : m.hessian x w = (do
    let layout ← m.hessianSparsity
    let values ← m.sparseHessian x w (← zeroBuffer layout.size)
    checkExtent 24 m.info.domain
    return rowsOf m.info.domain m.info.domain
      (scatter ((layout.entries.zip values).flatMap (mirrored layout.entries))))

namespace Library

open LoadedModel

omit [Scalar F] in
theorem eq_some_of_require {m : LoadedModel σ F} {α : Type} {x? : Option α} {x : α} {role : Role}
    (h : m.require x? role = .ok x) : x? = some x := by
  cases x? with
  | none => cases h
  | some _ => exact congrArg some (Except.ok.inj h)

/-- Whatever symbols a library has, a model that is loaded from it is
protected. -/
theorem guarded_of_model {lib : Library σ F} {name : String} {m : LoadedModel σ F}
    (h : lib.model name = .ok m) : lib.Guarded name m :=
  have loads := loads_of_model h
  { info := loads.info
    forwardZero := loads.forwardZero_guards
    sparseJacobian := loads.sparseJacobian_guards
    sparseHessian := loads.sparseHessian_guards
    jacobianInside := fun found => loads.jacobianInside (eq_some_of_require found)
    jacobian := loads.jacobian_eq
    hessianInside := fun found => loads.hessianInside (eq_some_of_require found)
    hessian := loads.hessian_eq }

end Library

end

/-- A function that returns three values, however many it was asked for, and
counts its calls. -/
def threeValues : EntryPoint Nat ℚ := fun _ _ => do
  modify (· + 1)
  return [1, 2, 3]

/-- A library whose layout has a position twice, for a function that returns
one value more than the layout has. -/
def careless : Library Nat ℚ :=
  (((∅ : Library Nat ℚ).insert (symbolName "m" .info) (.info ⟨"m", 1, 2, Scalar.typeName ℚ⟩)).insert
    (symbolName "m" .jacobianSparsity) (.sparsity ⟨2, 1, [1, 1], [0, 0]⟩)).insert
    (symbolName "m" .sparseJacobian) (.function threeValues)

theorem model_careless : careless.model "m" = .ok
    { info := ⟨"m", 1, 2, Scalar.typeName ℚ⟩
      forwardZero? := none
      jacobianSparsity? := some ⟨2, 1, [1, 1], [0, 0]⟩
      sparseJacobian? := some threeValues
      hessianSparsity? := none
      sparseHessian? := none } := by
  rfl

/-- A buffer of the wrong size is refused, and the call is not counted.  The
dense matrix has the last value of its position. -/
theorem guarded_careless : ∃ m, careless.model "m" = .ok m ∧
    (∃ what expected actual, Refuses (m.sparseJacobian [5] [0]) (.sizeMismatch what expected actual)) ∧
    (m.jacobian [5]).run.run 0 = (.ok [[0], [2]], 1) := by
  have guarded := Library.guarded_of_model model_careless
  refine ⟨_, model_careless, ?_, ?_⟩
  · obtain ⟨what, expected, actual, -, refuses⟩ :=
      ((guarded.sparseJacobian [5] [0]).bound (f := threeValues) rfl).refuses (by
        rintro ⟨-, layout, found, size⟩
        have eq : (⟨2, 1, [1, 1], [0, 0]⟩ : Sparsity) = layout :=
          Symbol.sparsity.inj (Option.some.inj found)
        rw [← eq] at size
        cases size)
    exact ⟨what, expected, actual, refuses⟩
  · rw [guarded.jacobian]
    rfl

end LoopDiff
