import LoopDiff.Proofs.Library.Total
import LoopDiff.Proofs.Model.Derivatives

/-!
# LoopDiff.Proofs.Library.Jacobian

The compiled Jacobian is the Jacobian, in exact arithmetic.

The derivatives are those of runs of the model on dual numbers
(`Model.derivatives`).  The graph of any selection of elements evaluates to
the derivatives at these elements.  The layout of the default options leaves
out only elements that are zero, so the dense matrix has all derivatives
(`Model.Accepted.jacobian_correct`).

Every derivative is one of a run of the whole model.  So if a model has an
exponent that cannot be lowered, all of these runs crash, and there are no
derivatives to compare with.
-/

namespace LoopDiff

theorem mapM_eq_ok {α β : Type} {f : α → Except Failure β} {g : α → β} {xs : List α}
    (h : ∀ x ∈ xs, f x = .ok (g x)) : xs.mapM f = .ok (xs.map g) := by
  induction xs with
  | nil => rfl
  | cons x xs ih =>
      rw [List.mapM_cons, bind_of_ok (h x (List.mem_cons_self ..)),
        bind_of_ok (ih fun y hy => h y (List.mem_cons_of_mem _ hy))]
      rfl

/-- A list of failures fails like its first element. -/
theorem mapM_eq_error {α β : Type} {f : α → Except Failure β} {xs : List α} {e : Failure}
    (nonempty : xs ≠ []) (h : ∀ x ∈ xs, f x = .error e) : xs.mapM f = .error e := by
  obtain ⟨x, rest, rfl⟩ := List.exists_cons_of_ne_nil nonempty
  rw [List.mapM_cons, h x (List.mem_cons_self ..)]
  rfl

namespace Model

section

variable {F : Type} [Scalar F] (m : Model F)

/-- The derivatives at some elements of the Jacobian. -/
def derivatives (xs : List F) (elements : List (Nat × Nat)) : Except Failure (List F) :=
  elements.mapM fun e => m.derivative xs e.1 e.2

/-- The rows of the Jacobian. -/
def jacobianRows (xs : List F) : Except Failure (List (List F)) :=
  (List.range m.range).mapM fun d => (List.range m.domain).mapM fun j => m.derivative xs d j

end

variable {σ F : Type} [Field F] [Scalar F] [ExactScalar F] [PowerRule F] {m : Model F}

/-- Numbers that are read as the derivatives are those of the runs. -/
theorem Accepted.derivatives_of_reads (accepted : m.Accepted) {elements : List (Nat × Nat)}
    (exponents : elements ≠ [] → m.Exponents (Exponent.Lowers 1))
    (selection : IsSelection m.range m.domain elements) {xs vs : List F}
    (len : xs.length = m.domain) (h : m.ReadsAsDerivatives F elements xs vs) :
    m.derivatives xs elements = .ok vs := by
  obtain ⟨Y, computes, count, values⟩ := h
  have listed : elements.map (fun e => (Y e.2 e.1).eps) = vs := by
    refine List.ext_getElem (by simp [count]) fun k lt lt' => ?_
    rw [List.getElem_map]
    exact (values k _ _ (by simp) (by simp)).symm
  rw [← listed]
  exact mapM_eq_ok fun e he => accepted.derivative_eq (exponents (List.ne_nil_of_mem he)) len
    (selection.row_lt he) (selection.col_lt he) (computes _)

/-- The graph of a selection of elements evaluates to the derivatives. -/
theorem Accepted.evaluate_jacobian (accepted : m.Accepted) {elements : List (Nat × Nat)}
    (exponents : elements ≠ [] → m.Exponents (Exponent.Lowers 1))
    (selection : IsSelection m.range m.domain elements) (fits : m.Fits elements.length) :
    ∃ c : Compiled F, m.assemble false (fun asm => asm.jacobian elements) = .ok c ∧
      ∀ xs, xs.length = m.domain → ∃ vs, m.derivatives xs elements = .ok vs ∧
        c.arena.evaluate c.outputs [xs] = .ok vs := by
  obtain ⟨c, assembled, -, evaluates⟩ := accepted.assemble_jacobian (R := F) exponents fits
    selection.nodup fun e he => selection.row_lt he
  refine ⟨c, assembled, fun xs len => ?_⟩
  obtain ⟨vs, gives, reads⟩ := evaluates xs len
  exact ⟨vs, accepted.derivatives_of_reads exponents selection len reads, gives.evaluate⟩

/-- The dense Jacobian of a compiled model is the Jacobian, if its layout
has all elements that can be nonzero. -/
theorem Accepted.dense_jacobian (accepted : m.Accepted)
    (exponents : m.Exponents (Exponent.Lowers 1)) {options : CompileOptions}
    {p : Parts F} (parts : p.Of m options) (sound : p.SoundJacobian m)
    (asked : options.sparseJacobian = true) (fits : m.Fits p.jacobianElements.length)
    (all : ∀ d < m.range, ∀ j, (d, j) ∈ p.jacobianElements ↔ m.Depends d j) {xs : List F}
    (len : xs.length = m.domain) : ∃ rows, m.jacobianRows xs = .ok rows ∧
      (p.loaded m options : LoadedModel σ F).jacobian xs = pure rows := by
  obtain ⟨c, assembled, evaluates⟩ :=
    accepted.evaluate_jacobian (fun _ => exponents) sound.jacobianSelection fits
  cases parts.jacobian.symm.trans assembled
  obtain ⟨vs, values, run⟩ := evaluates xs len
  choose Y computes using fun j => m.exists_computes accepted.valid
    (seeded (fun i => (embed (xs.getD i Scalar.zero) : F)) j)
  have value {d j : Nat} (hd : d < m.range) (hj : j < m.domain) :
      (m.derivative xs d j : Except Failure F) = .ok (Y j d).eps :=
    accepted.derivative_eq exponents len hd hj (computes j)
  refine ⟨_, mapM_eq_ok fun d hd => mapM_eq_ok fun j hj =>
    value (List.mem_range.mp hd) (List.mem_range.mp hj), ?_⟩
  refine sound.jacobian_eq asked len run (fun e v mem => ?_) fun d hd j _ free => ?_
  · have inside := (List.of_mem_zip mem).1
    have here := List.forall₂_zip (forall₂_of_mapM values) mem
    rw [value (sound.jacobianSelection.row_lt inside)
      (sound.jacobianSelection.col_lt inside)] at here
    exact (Except.ok.inj here).symm
  · rw [accepted.eps_eq_zero (computes j) hd fun h => free ((all d hd j).mpr h),
      ExactScalar.zero_eq]

section

variable (accepted : m.Accepted) (low : ¬m.Exponents (Exponent.Lowers 1)) {xs : List F}
  (len : xs.length = m.domain)

include accepted low len

/-- An exponent that cannot be lowered leaves no derivatives. -/
theorem Accepted.derivatives_crash {elements : List (Nat × Nat)} (nonempty : elements ≠ [])
    (selection : IsSelection m.range m.domain elements) :
    m.derivatives xs elements = .error (.crash none) :=
  mapM_eq_error nonempty fun _ he =>
    accepted.derivative_crash low len (selection.row_lt he) (selection.col_lt he)

theorem Accepted.jacobianRows_crash : m.jacobianRows xs = .error (.crash none) := by
  have valid := accepted.valid
  refine mapM_eq_error ?_ fun d hd => mapM_eq_error ?_ fun j hj =>
    accepted.derivative_crash low len (List.mem_range.mp hd) (List.mem_range.mp hj)
  · exact List.range_eq_nil.not.mpr valid.range_pos.ne'
  · exact List.range_eq_nil.not.mpr valid.domain_pos.ne'

end

/-- The compiled Jacobian of an accepted model has the derivatives of the
dependents, as runs on dual numbers give them: the graph of any selection of
elements has those at the elements, and with the default options the dense
matrix has all of them.  If these runs crash, the model has an exponent that
cannot be lowered.

The library of the default options has the Hessian too, and it is there if
every exponent can be lowered twice. -/
theorem Accepted.jacobian_correct (accepted : m.Accepted) :
    (∀ elements, IsSelection m.range m.domain elements → m.Fits elements.length →
      (∃ c : Compiled F, m.assemble false (fun asm => asm.jacobian elements) = .ok c ∧
        ∀ xs, xs.length = m.domain → ∃ vs, m.derivatives xs elements = .ok vs ∧
          c.arena.evaluate c.outputs [xs] = .ok vs) ∨
      ¬m.Exponents (Exponent.Lowers 1) ∧ ∀ xs, xs.length = m.domain →
        m.derivatives xs elements = .error (.crash none)) ∧
    (m.Room {} →
      (m.Exponents (Exponent.Lowers 2) → ∃ (lib : Library σ F) (loaded : LoadedModel σ F),
        m.compile {} = .ok lib ∧ lib.model m.name = .ok loaded) ∧
      ∀ (lib : Library σ F) (loaded : LoadedModel σ F), m.compile {} = .ok lib →
        lib.model m.name = .ok loaded → ∀ xs, xs.length = m.domain →
          (∃ rows, m.jacobianRows xs = .ok rows ∧ loaded.jacobian xs = pure rows) ∨
          ¬m.Exponents (Exponent.Lowers 1) ∧ m.jacobianRows xs = .error (.crash none)) := by
  refine ⟨fun elements selection fits => ?_, fun room => ⟨fun twice => ?_, ?_⟩⟩
  · by_cases exponents : elements ≠ [] → m.Exponents (Exponent.Lowers 1)
    · exact .inl (accepted.evaluate_jacobian exponents selection fits)
    · obtain ⟨nonempty, low⟩ := Classical.not_imp.mp exponents
      exact .inr ⟨low, fun xs len => accepted.derivatives_crash low len nonempty selection⟩
  · obtain ⟨p, parts, sound, -⟩ := accepted.exists_parts twice room nofun nofun
    obtain ⟨lib, compiled, found⟩ := accepted.exists_library (σ := σ) parts sound
    exact ⟨lib, p.loaded m {}, compiled, found⟩
  · intro lib loaded compiled found xs len
    by_cases once : m.Exponents (Exponent.Lowers 1)
    · obtain ⟨p, parts, complete, selection, found'⟩ := accepted.exists_parts_of_compile compiled
      cases found.symm.trans found'
      obtain ⟨fits, size⟩ := room.jacobian parts.jacobianLayout
      rw [Parts.size_jacobianLayout] at fits size
      obtain ⟨c, assembled, evaluates⟩ := accepted.exists_jacobian (fun _ => once) fits selection
      cases parts.jacobian.symm.trans assembled
      exact .inl (accepted.dense_jacobian once parts ⟨room.range, selection, size, evaluates⟩ rfl
        fits (complete.jacobian rfl) len)
    · exact .inr ⟨once, accepted.jacobianRows_crash once len⟩

/-- The products `2 * 7` and `3 * 7`, where `7` is its own sine and cosine,
and the square of `7`. -/
theorem jacobian_products :
    (∃ c : Compiled ℚ, (products ℚ).assemble false (fun asm => asm.jacobian [(2, 2), (0, 1), (0, 2)])
        = .ok c ∧ c.arena.evaluate c.outputs [[2, 3, 7]] = .ok [14, 0, 14]) ∧
    ∃ (lib : Library Unit ℚ) (loaded : LoadedModel Unit ℚ), (products ℚ).compile {} = .ok lib ∧
      lib.model "products" = .ok loaded ∧
        loaded.jacobian [2, 3, 7] = pure [[7, 0, 14], [0, 7, 21], [0, 0, 14]] := by
  obtain ⟨graph, dense⟩ := (accepted_products (F := ℚ)).jacobian_correct (σ := Unit)
  constructor
  · have here : (products ℚ).derivatives [2, 3, 7] [(2, 2), (0, 1), (0, 2)] = .ok [14, 0, 14] := by
      decide +kernel
    rcases graph [(2, 2), (0, 1), (0, 2)] ⟨by decide, by decide, by decide⟩
      (fits_products ℚ (by decide)) with ⟨c, assembled, evaluates⟩ | ⟨low, -⟩
    · obtain ⟨vs, values, run⟩ := evaluates [2, 3, 7] rfl
      cases here.symm.trans values
      exact ⟨c, assembled, run⟩
    · exact absurd (exponents_products ℚ _) low
  · have here : (products ℚ).jacobianRows [2, 3, 7] = .ok [[7, 0, 14], [0, 7, 21], [0, 0, 14]] := by
      decide +kernel
    obtain ⟨library, matrix⟩ := dense small_products.room
    obtain ⟨lib, loaded, compiled, found⟩ := library (exponents_products ℚ _)
    rcases matrix lib loaded compiled found [2, 3, 7] rfl with ⟨rows, values, call⟩ | ⟨low, -⟩
    · cases here.symm.trans values
      exact ⟨lib, loaded, compiled, found, call⟩
    · exact absurd (exponents_products ℚ _) low

end Model

end LoopDiff
