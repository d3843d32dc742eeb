import LoopDiff.Proofs.Assembly.Forward
import LoopDiff.Proofs.Library.Dense

/-!
# LoopDiff.Proofs.Library.Total

Compiling an accepted model, loading it and calling it does not fail.

All graphs of an accepted model can be recorded, and evaluate on all input
arrays of the right sizes (`Model.Accepted.exists_parts`).  So its
compilation succeeds, the library loads, and every function that was asked
for can be called (`Model.Accepted.compile_total`).
-/

namespace LoopDiff

variable {σ F : Type} [Scalar F]

/-! ## Parts of a model -/

/-- The sizes of a model and of what is to be compiled leave room for the
arithmetic on indices, and for the matrices. -/
structure Model.Room (m : Model F) (options : CompileOptions) : Prop where
  range : 24 * m.range < 0x8000000000000000
  jacobian {s : Sparsity} : m.jacobianLayoutFor options.jacobianElements = .ok s →
    m.Fits s.size ∧ 8 * s.size < 0x8000000000000000
  hessian {s : Sparsity} : m.hessianLayoutFor options.hessianElements = .ok s →
    m.Fits s.size ∧ 8 * s.size < 0x8000000000000000

/-- Parts of which that for the Jacobian can be called. -/
structure Parts.SoundJacobian (p : Parts F) (m : Model F) : Prop where
  range : 24 * m.range < 0x8000000000000000
  jacobianSelection : IsSelection m.range m.domain p.jacobianElements
  jacobianSize : 8 * p.jacobianElements.length < 0x8000000000000000
  jacobian : p.jacobian.Evaluates [m.domain] p.jacobianElements.length

/-- Parts that can be put in a library and called. -/
structure Parts.Sound (p : Parts F) (m : Model F) : Prop extends p.SoundJacobian m where
  domain : 24 * m.domain < 0x8000000000000000
  hessianSelection : IsSelection m.domain m.domain p.hessianElements
  hessianSize : 8 * p.hessianElements.length < 0x8000000000000000
  forward : p.forward.Evaluates [m.domain] m.range
  hessian : p.hessian.Evaluates [m.domain, m.range] p.hessianElements.length

/-- Where no elements are asked for, the layouts have all that can be nonzero,
that of the Hessian those of the lower triangle. -/
structure Parts.Complete (p : Parts F) (m : Model F) (options : CompileOptions) : Prop where
  jacobian : options.jacobianElements = none → ∀ d < m.range, ∀ j,
    (d, j) ∈ p.jacobianElements ↔ m.Depends d j
  hessian : options.hessianElements = none → ∀ r c,
    (r, c) ∈ p.hessianElements ↔ c ≤ r ∧ m.Meet r c

omit [Scalar F] in
theorem exists_of_map_length {inputs : List (List F)} {n : Nat}
    (h : inputs.map List.length = [n]) : ∃ xs, inputs = [xs] ∧ xs.length = n := by
  obtain ⟨xs, rest, rfl, length, empty⟩ := List.map_eq_cons_iff.mp h
  rw [List.map_eq_nil_iff.mp empty]
  exact ⟨xs, rfl, length⟩

/-- The graph of a selection of elements of the Jacobian can be called. -/
theorem Model.Accepted.exists_jacobian {m : Model F} (accepted : m.Accepted)
    {elements : List (Nat × Nat)} (exponents : elements ≠ [] → m.Exponents (Exponent.Lowers 1))
    (fits : m.Fits elements.length) (selection : IsSelection m.range m.domain elements) :
    ∃ c : Compiled F, m.assemble false (fun asm => asm.jacobian elements) = .ok c ∧
      c.Evaluates [m.domain] elements.length := by
  obtain ⟨c, made, length, runs⟩ := accepted.assemble_jacobian (R := PUnit) exponents fits
    selection.nodup fun e he => selection.row_lt he
  refine ⟨c, made, length, fun inputs sizes => ?_⟩
  obtain ⟨xs, rfl, domain⟩ := exists_of_map_length sizes
  obtain ⟨vs, gives, -, -, count, -⟩ := runs xs domain
  exact ⟨vs, gives.evaluate, count⟩

/-- An accepted model can be compiled. -/
theorem Model.Accepted.exists_parts {m : Model F} {options : CompileOptions}
    (accepted : m.Accepted) (exponents : m.Exponents (Exponent.Lowers 2))
    (room : m.Room options)
    (jacobian : ∀ es, options.jacobianElements = some es → IsSelection m.range m.domain es)
    (hessian : ∀ es, options.hessianElements = some es → IsSelection m.domain m.domain es) :
    ∃ p : Parts F, p.Of m options ∧ p.Sound m ∧ p.Complete m options := by
  obtain ⟨js, jacobianLayout, jacobianSelection, depending⟩ :=
    accepted.exists_jacobianLayout jacobian
  obtain ⟨hs, hessianLayout, hessianSelection, meeting⟩ := accepted.exists_hessianLayout hessian
  obtain ⟨jacobianFits, jacobianSize⟩ := room.jacobian jacobianLayout
  obtain ⟨hessianFits, hessianSize⟩ := room.hessian hessianLayout
  rw [Sparsity.size_ofEntries] at jacobianFits jacobianSize hessianFits hessianSize
  have once : m.Exponents (Exponent.Lowers 1) := exponents.mono fun _ h => h.mono one_le_two
  obtain ⟨forward, forwardMade, forwardLength, forwardRuns⟩ :=
    accepted.assemble_forward (R := PUnit) jacobianFits
  obtain ⟨jacobian, jacobianMade, jacobianRuns⟩ :=
    accepted.exists_jacobian (fun _ => once) jacobianFits jacobianSelection
  obtain ⟨hessian, hessianMade, hessianLength, hessianRuns⟩ := accepted.assemble_hessian
    (R := PUnit) exponents hessianFits room.range hessianSelection.nodup
  refine ⟨⟨forward, js, jacobian, hs, hessian⟩,
    ⟨forwardMade, jacobianLayout, jacobianMade, hessianLayout, hessianMade⟩,
    ⟨⟨room.range, jacobianSelection, jacobianSize, jacobianRuns⟩, jacobianFits.domain,
      hessianSelection, hessianSize, ⟨forwardLength, ?_⟩, ⟨hessianLength, ?_⟩⟩, depending, meeting⟩
  · intro inputs sizes
    obtain ⟨xs, rfl, domain⟩ := exists_of_map_length sizes
    obtain ⟨ys, gives, -, -, count, -⟩ := forwardRuns xs domain
    exact ⟨ys, gives.evaluate, count⟩
  · intro inputs sizes
    obtain ⟨xs, rest, rfl, domain, sizes⟩ := List.map_eq_cons_iff.mp sizes
    obtain ⟨ws, rfl, range⟩ := exists_of_map_length sizes
    obtain ⟨vs, gives, count, -⟩ := hessianRuns xs ws domain range
    exact ⟨vs, gives.evaluate, count⟩

/-! ## Calls -/

section

variable {p : Parts F} {m : Model F} {options : CompileOptions}

namespace Parts.SoundJacobian

variable (sound : p.SoundJacobian m)

include sound

/-- The values of the compressed Jacobian are those of its graph. -/
theorem exists_sparseJacobian (asked : options.sparseJacobian = true) {x values : List F}
    (domain : x.length = m.domain) (size : values.length = p.jacobianElements.length) :
    ∃ vs, (p.loaded m options : LoadedModel σ F).sparseJacobian x values = pure vs ∧
      p.jacobian.arena.evaluate p.jacobian.outputs [x] = .ok vs ∧
      vs.length = p.jacobianElements.length := by
  obtain ⟨vs, run, count⟩ := sound.jacobian.2 [x] (by simpa using domain)
  refine ⟨vs, ?_, run, count⟩
  refine (LoadedModel.sparseJacobian_eq (if_pos asked) (if_pos asked) domain ?_).trans ?_
  · rw [size, size_jacobianLayout]
  · exact Compiled.entryPoint_eq (sound.jacobian.1.trans size.symm) run

/-- The dense Jacobian has the values of the graph at their places and zeros
elsewhere. -/
theorem jacobian_eq (asked : options.sparseJacobian = true) {x vs : List F}
    (domain : x.length = m.domain)
    (run : p.jacobian.arena.evaluate p.jacobian.outputs [x] = .ok vs)
    {D : Nat → Nat → F} (here : ∀ e v, (e, v) ∈ p.jacobianElements.zip vs → v = D e.1 e.2)
    (elsewhere : ∀ r < m.range, ∀ c < m.domain,
      (r, c) ∉ p.jacobianElements → D r c = Scalar.zero) :
    (p.loaded m options : LoadedModel σ F).jacobian x =
      pure ((List.range m.range).map fun r => (List.range m.domain).map (D r)) := by
  obtain ⟨vs', call, run', count⟩ := sound.exists_sparseJacobian (σ := σ) asked domain
    List.length_replicate
  cases run.symm.trans run'
  exact LoadedModel.jacobian_eq (if_pos asked) (entries_jacobianLayout ..)
    (size_jacobianLayout ..) sound.jacobianSelection sound.jacobianSize sound.range call count
    here elsewhere

theorem exists_jacobian (asked : options.sparseJacobian = true) {x : List F}
    (domain : x.length = m.domain) :
    ∃ matrix, (p.loaded m options : LoadedModel σ F).jacobian x = pure matrix := by
  obtain ⟨vs, run, count⟩ := sound.jacobian.2 [x] (by simpa using domain)
  let D (r c : Nat) : F := ((p.jacobianElements.zip vs).lookup (r, c)).getD Scalar.zero
  refine ⟨_, sound.jacobian_eq (D := D) asked domain run (fun e v mem => ?_)
    fun r _ c _ free => congrArg (Option.getD · Scalar.zero) (lookup_zip_eq_none free)⟩
  have found := lookup_zip_of_mem sound.jacobianSelection.nodup count mem
  exact (congrArg (Option.getD · Scalar.zero) found).symm

end Parts.SoundJacobian

namespace Parts.Sound

variable (sound : p.Sound m)

include sound

theorem exists_forwardZero (asked : options.forwardZero = true) {x y : List F}
    (domain : x.length = m.domain) (range : y.length = m.range) :
    ∃ ys, (p.loaded m options : LoadedModel σ F).forwardZero x y = pure ys := by
  obtain ⟨ys, run, -⟩ := sound.forward.2 [x] (by simpa using domain)
  refine ⟨ys, (LoadedModel.forwardZero_eq (if_pos asked) domain range).trans ?_⟩
  exact Compiled.entryPoint_eq (sound.forward.1.trans range.symm) run

/-- The values of the compressed Hessian are those of its graph. -/
theorem exists_sparseHessian (asked : options.sparseHessian = true) {x w values : List F}
    (domain : x.length = m.domain) (range : w.length = m.range)
    (size : values.length = p.hessianElements.length) :
    ∃ vs, (p.loaded m options : LoadedModel σ F).sparseHessian x w values = pure vs ∧
      p.hessian.arena.evaluate p.hessian.outputs [x, w] = .ok vs ∧
      vs.length = p.hessianElements.length := by
  obtain ⟨vs, run, count⟩ := sound.hessian.2 [x, w] (by simpa using ⟨domain, range⟩)
  refine ⟨vs, ?_, run, count⟩
  refine (LoadedModel.sparseHessian_eq (if_pos asked) (if_pos asked) domain range ?_).trans ?_
  · rw [size, size_hessianLayout]
  · exact Compiled.entryPoint_eq (sound.hessian.1.trans size.symm) run

/-- The dense Hessian has the values of the graph at their places, and mirrored
where the layout has only one of two places, and zeros elsewhere. -/
theorem hessian_eq (asked : options.sparseHessian = true) {x w vs : List F}
    (domain : x.length = m.domain) (range : w.length = m.range)
    (run : p.hessian.arena.evaluate p.hessian.outputs [x, w] = .ok vs)
    {D : Nat → Nat → F} (here : ∀ e v, (e, v) ∈ p.hessianElements.zip vs → v = D e.1 e.2)
    (mirrored : ∀ r c, (r, c) ∈ p.hessianElements → (c, r) ∉ p.hessianElements → D c r = D r c)
    (elsewhere : ∀ r < m.domain, ∀ c < m.domain, (r, c) ∉ p.hessianElements →
      (c, r) ∉ p.hessianElements → D r c = Scalar.zero) :
    (p.loaded m options : LoadedModel σ F).hessian x w =
      pure ((List.range m.domain).map fun r => (List.range m.domain).map (D r)) := by
  obtain ⟨vs', call, run', count⟩ := sound.exists_sparseHessian (σ := σ) asked domain range
    List.length_replicate
  cases run.symm.trans run'
  exact LoadedModel.hessian_eq (if_pos asked) (entries_hessianLayout ..)
    (size_hessianLayout ..) sound.hessianSelection sound.hessianSize sound.domain call count
    here mirrored elsewhere

theorem exists_hessian (asked : options.sparseHessian = true) {x w : List F}
    (domain : x.length = m.domain) (range : w.length = m.range) :
    ∃ matrix, (p.loaded m options : LoadedModel σ F).hessian x w = pure matrix := by
  obtain ⟨vs, run, count⟩ := sound.hessian.2 [x, w] (by simpa using ⟨domain, range⟩)
  let found (r c : Nat) : Option F := (p.hessianElements.zip vs).lookup (r, c)
  have absent {r c : Nat} (free : (r, c) ∉ p.hessianElements) : found r c = none :=
    lookup_zip_eq_none free
  let D (r c : Nat) : F := ((found r c).or (found c r)).getD Scalar.zero
  refine ⟨_, sound.hessian_eq (D := D) asked domain range run (fun e v mem => ?_)
    (fun r c _ free => ?_) fun r _ c _ free free' => ?_⟩
  · have here : found e.1 e.2 = some v :=
      lookup_zip_of_mem sound.hessianSelection.nodup count mem
    simp only [D, here, Option.some_or, Option.getD_some]
  · simp only [D, absent free, Option.none_or, Option.or_none]
  · simp only [D, absent free, absent free', Option.none_or, Option.getD_none]

end Parts.Sound

end

/-! ## Models -/

/-- Every function that was asked for can be called with arrays and buffers
of the right sizes.  A call that is `pure` neither fails nor has an
effect. -/
structure LoadedModel.Serves (m : LoadedModel σ F) (options : CompileOptions) : Prop where
  forwardZero : options.forwardZero = true → ∀ x y : List F, x.length = m.info.domain →
    y.length = m.info.range → ∃ ys, m.forwardZero x y = pure ys
  sparseJacobian : options.sparseJacobian = true → ∃ layout, m.jacobianSparsity = .ok layout ∧
    ∀ x values : List F, x.length = m.info.domain → values.length = layout.size →
      ∃ vs, m.sparseJacobian x values = pure vs
  jacobian : options.sparseJacobian = true → ∀ x : List F, x.length = m.info.domain →
    ∃ matrix, m.jacobian x = pure matrix
  sparseHessian : options.sparseHessian = true → ∃ layout, m.hessianSparsity = .ok layout ∧
    ∀ x w values : List F, x.length = m.info.domain → w.length = m.info.range →
      values.length = layout.size → ∃ vs, m.sparseHessian x w values = pure vs
  hessian : options.sparseHessian = true → ∀ x w : List F, x.length = m.info.domain →
    w.length = m.info.range → ∃ matrix, m.hessian x w = pure matrix

theorem Parts.Sound.serves {p : Parts F} {m : Model F} (sound : p.Sound m)
    (options : CompileOptions) : (p.loaded m options : LoadedModel σ F).Serves options where
  forwardZero asked _ _ domain range := sound.exists_forwardZero asked domain range
  sparseJacobian asked := by
    refine ⟨p.jacobianLayout m, ?_, fun x values domain size => ?_⟩
    · rw [LoadedModel.jacobianSparsity, loaded, if_pos asked]
      rfl
    · obtain ⟨vs, call, -⟩ := sound.toSoundJacobian.exists_sparseJacobian asked domain
        (size.trans (p.size_jacobianLayout m))
      exact ⟨vs, call⟩
  jacobian asked _ domain := sound.toSoundJacobian.exists_jacobian asked domain
  sparseHessian asked := by
    refine ⟨p.hessianLayout m, ?_, fun x w values domain range size => ?_⟩
    · rw [LoadedModel.hessianSparsity, loaded, if_pos asked]
      rfl
    · obtain ⟨vs, call, -⟩ := sound.exists_sparseHessian asked domain range
        (size.trans (p.size_hessianLayout m))
      exact ⟨vs, call⟩
  hessian asked _ _ domain range := sound.exists_hessian asked domain range

namespace Model

variable {m : Model F} {options : CompileOptions}

/-- The library of an accepted model has its parts. -/
theorem Accepted.exists_library (accepted : m.Accepted) {p : Parts F} (parts : p.Of m options)
    (sound : p.Sound m) : ∃ lib : Library σ F, m.compile options = .ok lib ∧
      lib.model m.name = .ok (p.loaded m options) := by
  obtain ⟨lib, compiled, provides⟩ := parts.compile_eq
  exact ⟨lib, compiled, Parts.model_eq provides accepted.valid.domain_pos accepted.valid.range_pos
    sound.jacobianSelection sound.hessianSelection⟩

/-- A library that an accepted model was compiled to, with nothing left out,
has parts of the model. -/
theorem Accepted.exists_parts_of_compile (accepted : m.Accepted) {lib : Library σ F}
    (compiled : m.compile {} = .ok lib) :
    ∃ p : Parts F, p.Of m {} ∧ p.Complete m {} ∧
      IsSelection m.range m.domain p.jacobianElements ∧
        lib.model m.name = .ok (p.loaded m {}) := by
  have unasked {rows cols : Nat} (es : List (Nat × Nat)) (h : none = some es) :
      IsSelection rows cols es := by cases h
  obtain ⟨js, jacobianLayout, jacobianSelection, depending⟩ :=
    accepted.exists_jacobianLayout unasked
  obtain ⟨hs, hessianLayout, hessianSelection, meeting⟩ :=
    accepted.exists_hessianLayout unasked
  obtain ⟨⟨f, forward⟩, ⟨s, g, found, jacobian⟩, s', h, found', hessian⟩ :=
    assembled_of_compile compiled
  cases found.symm.trans jacobianLayout
  cases found'.symm.trans hessianLayout
  rw [Sparsity.entries_ofEntries] at jacobian hessian
  have parts : (⟨f, js, g, hs, h⟩ : Parts F).Of m {} :=
    ⟨forward, jacobianLayout, jacobian, hessianLayout, hessian⟩
  obtain ⟨lib', compiled', provides⟩ := parts.compile_eq (σ := σ)
  cases compiled.symm.trans compiled'
  exact ⟨_, parts, ⟨depending, meeting⟩, jacobianSelection,
    Parts.model_eq provides accepted.valid.domain_pos accepted.valid.range_pos jacobianSelection
      hessianSelection⟩

/-- The sizes of a model and of what is to be compiled are below `2 ^ 31`. -/
structure Small (m : Model F) (options : CompileOptions) : Prop where
  domain : m.domain < 0x80000000
  range : m.range < 0x80000000
  iterations {l : Loop F} : l ∈ m.loops → l.iterations < 0x80000000
  jacobian {s : Sparsity} : m.jacobianLayoutFor options.jacobianElements = .ok s →
    s.size < 0x80000000
  hessian {s : Sparsity} : m.hessianLayoutFor options.hessianElements = .ok s →
    s.size < 0x80000000

omit [Scalar F] in
/-- Layouts are small if the matrices are. -/
theorem Accepted.small (accepted : m.Accepted) (domain : m.domain < 0x80000000)
    (range : m.range < 0x80000000) (iterations : ∀ l ∈ m.loops, l.iterations < 0x80000000)
    (places : m.range * m.domain < 0x80000000) (places' : m.domain * m.domain < 0x80000000)
    (jacobian : ∀ es, options.jacobianElements = some es → IsSelection m.range m.domain es)
    (hessian : ∀ es, options.hessianElements = some es → IsSelection m.domain m.domain es) :
    m.Small options where
  domain := domain
  range := range
  iterations hl := iterations _ hl
  jacobian hs := by
    obtain ⟨es, layout, selection, -⟩ := accepted.exists_jacobianLayout jacobian
    cases layout.symm.trans hs
    exact (Sparsity.size_ofEntries ..).trans_lt (selection.length_le.trans_lt places)
  hessian hs := by
    obtain ⟨es, layout, selection, -⟩ := accepted.exists_hessianLayout hessian
    cases layout.symm.trans hs
    exact (Sparsity.size_ofEntries ..).trans_lt (selection.length_le.trans_lt places')

omit [Scalar F] in
theorem Small.room (small : m.Small options) : m.Room options := by
  have fits {k : Nat} (lt : k < 0x80000000) :
      m.Fits k ∧ 8 * k < 0x8000000000000000 := by
    have domain := small.domain
    refine ⟨⟨by omega, fun hl => ?_, fun hl => ?_⟩, by omega⟩
    · have := small.iterations hl
      omega
    · have := Nat.mul_lt_mul'' lt (small.iterations hl)
      omega
  have range := small.range
  exact ⟨by omega, fun h => fits (small.jacobian h), fun h => fits (small.hessian h)⟩

/-- Compiling an accepted model, loading it and calling its functions never
fails, whatever the number type. -/
theorem Accepted.compile_total (accepted : m.Accepted)
    (exponents : m.Exponents fun n => -0x7ffffffe ≤ n.toInt) (small : m.Small options)
    (jacobian : ∀ es, options.jacobianElements = some es → IsSelection m.range m.domain es)
    (hessian : ∀ es, options.hessianElements = some es → IsSelection m.domain m.domain es) :
    ∃ (lib : Library σ F) (loaded : LoadedModel σ F), m.compile options = .ok lib ∧
      lib.model m.name = .ok loaded ∧ loaded.info = m.info ∧ loaded.Serves options := by
  -- the bound is the least exponent that can be lowered twice
  have twice : m.Exponents (Exponent.Lowers 2) := exponents
  obtain ⟨p, parts, sound, -⟩ := accepted.exists_parts twice small.room jacobian hessian
  obtain ⟨lib, compiled, found⟩ := accepted.exists_library (σ := σ) parts sound
  exact ⟨lib, p.loaded m options, compiled, found, rfl, sound.serves options⟩

theorem small_products : (products ℚ).Small {} := by
  refine accepted_products.small (by decide) (by decide) (fun l hl => ?_) (by decide) (by decide)
    nofun nofun
  cases List.mem_singleton.mp hl
  decide

/-- The dependents of the products can be computed from a library. -/
theorem compile_products : ∃ (lib : Library Unit ℚ) (loaded : LoadedModel Unit ℚ),
    (products ℚ).compile {} = .ok lib ∧ lib.model "products" = .ok loaded ∧
      ∃ ys, loaded.forwardZero [2, 3, 7] [0, 0, 0] = pure ys := by
  obtain ⟨lib, loaded, compiled, found, info, serves⟩ :=
    accepted_products.compile_total (exponents_products ℚ _) small_products nofun nofun
  exact ⟨lib, loaded, compiled, found, serves.forwardZero rfl _ _ (by rw [info]; rfl)
    (by rw [info]; rfl)⟩

end Model

end LoopDiff
