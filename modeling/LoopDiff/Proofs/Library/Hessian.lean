import LoopDiff.Proofs.Library.Jacobian
import LoopDiff.Proofs.Model.Curvature

/-!
# LoopDiff.Proofs.Library.Hessian

The compiled Hessian is the Hessian, in exact arithmetic, if no temporary meets
a shadowed input.

The second derivatives are those of runs of the model on dual numbers over
dual numbers (`Model.secondDerivatives`).  A loop in which an independent is
named twice among the inputs that are not indexed reads a pair of it and a
temporary only once (`Loop.Unshadowed` excludes this).  Without such loops, the
graph of any selection of elements evaluates to the second derivatives at these
elements, and the dense matrix of the default options has all of them
(`Model.Accepted.hessian_correct`).
-/

namespace LoopDiff

namespace Model

section

variable {F : Type} [Field F] [Scalar F] (m : Model F)

/-- The weighted second derivatives at some elements of the Hessian. -/
def secondDerivatives (xs ws : List F) (elements : List (Nat × Nat)) : Except Failure (List F) :=
  elements.mapM fun e => m.secondDerivative xs ws e.1 e.2

/-- The rows of the Hessian. -/
def hessianRows (xs ws : List F) : Except Failure (List (List F)) :=
  (List.range m.domain).mapM fun r => (List.range m.domain).mapM fun c =>
    m.secondDerivative xs ws r c

end

variable {σ F : Type} [Field F] [Scalar F] [ExactScalar F] [PowerRule F] {m : Model F}

/-- Numbers that are read as the second derivatives are those of the runs. -/
theorem Accepted.secondDerivatives_of_reads (accepted : m.Accepted)
    (exponents : m.Exponents (Exponent.Lowers 2)) {elements : List (Nat × Nat)}
    (selection : IsSelection m.domain m.domain elements) {xs ws vs : List F}
    (domain : xs.length = m.domain) (range : ws.length = m.range)
    (count : vs.length = elements.length)
    (h : m.ReadsAsSecondDerivatives F elements xs ws vs) :
    m.secondDerivatives xs ws elements = .ok vs := by
  obtain ⟨Y, computes, values⟩ := h
  have listed : (elements.map fun e => curvature (fun d => embed (ws.getD d Scalar.zero)) (Y e.1 e.2)
      (computed m.outer? m.loops)) = vs := by
    refine List.ext_getElem (by simp [count]) fun k lt lt' => ?_
    rw [List.getElem_map]
    exact (values k _ _ (by simp) (by simp)).symm
  rw [← listed]
  exact mapM_eq_ok fun e he => accepted.secondDerivative_eq exponents domain range
    (selection.row_lt he) (selection.col_lt he) (computes _ _)

/-- The graph of a selection of elements evaluates to the second
derivatives. -/
theorem Accepted.evaluate_hessian (accepted : m.Accepted)
    (exponents : m.Exponents (Exponent.Lowers 2))
    (unshadowed : ∀ l ∈ m.loops, l.Unshadowed) {elements : List (Nat × Nat)}
    (selection : IsSelection m.domain m.domain elements) (fits : m.Fits elements.length)
    (room : 24 * m.range < 0x8000000000000000) :
    ∃ c : Compiled F, m.assemble true (fun asm => asm.hessian elements) = .ok c ∧
      ∀ xs ws, xs.length = m.domain → ws.length = m.range →
        ∃ vs, m.secondDerivatives xs ws elements = .ok vs ∧
          c.arena.evaluate c.outputs [xs, ws] = .ok vs := by
  obtain ⟨c, assembled, -, evaluates⟩ :=
    accepted.assemble_hessian (R := F) exponents fits room selection.nodup
  refine ⟨c, assembled, fun xs ws domain range => ?_⟩
  obtain ⟨vs, gives, count, reads⟩ := evaluates xs ws domain range
  exact ⟨vs, accepted.secondDerivatives_of_reads exponents selection domain range count
    (reads unshadowed), gives.evaluate⟩

/-- The dense Hessian of a compiled model is the Hessian, if its layout has
one of every two mirrored elements that can be nonzero. -/
theorem Accepted.dense_hessian (accepted : m.Accepted)
    (exponents : m.Exponents (Exponent.Lowers 2))
    (unshadowed : ∀ l ∈ m.loops, l.Unshadowed) {options : CompileOptions} {p : Parts F}
    (parts : p.Of m options) (sound : p.Sound m) (asked : options.sparseHessian = true)
    (fits : m.Fits p.hessianElements.length)
    (all : ∀ r c, (r, c) ∈ p.hessianElements ↔ c ≤ r ∧ m.Meet r c) {xs ws : List F}
    (domain : xs.length = m.domain) (range : ws.length = m.range) :
    ∃ rows, m.hessianRows xs ws = .ok rows ∧
      (p.loaded m options : LoadedModel σ F).hessian xs ws = pure rows := by
  obtain ⟨c, assembled, evaluates⟩ := accepted.evaluate_hessian exponents unshadowed
    sound.hessianSelection fits sound.range
  cases parts.hessian.symm.trans assembled
  obtain ⟨vs, values, run⟩ := evaluates xs ws domain range
  choose Y computes using fun r c => m.exists_computes accepted.valid
    (seededTwice (fun i => (embed (xs.getD i Scalar.zero) : F)) r c)
  let D (r c : Nat) : F := curvature (fun d => embed (ws.getD d Scalar.zero)) (Y r c)
    (computed m.outer? m.loops)
  have value {r c : Nat} (hr : r < m.domain) (hc : c < m.domain) :
      m.secondDerivative xs ws r c = .ok (D r c) :=
    accepted.secondDerivative_eq exponents domain range hr hc (computes r c)
  refine ⟨_, mapM_eq_ok fun r hr => mapM_eq_ok fun c hc =>
    value (List.mem_range.mp hr) (List.mem_range.mp hc), ?_⟩
  refine sound.hessian_eq asked domain range run (fun e v mem => ?_) (fun r c _ _ => ?_)
    fun r _ c _ free free' => ?_
  · have inside := (List.of_mem_zip mem).1
    have here := List.forall₂_zip (forall₂_of_mapM values) mem
    rw [value (sound.hessianSelection.row_lt inside) (sound.hessianSelection.col_lt inside)] at here
    exact (Except.ok.inj here).symm
  · exact (computes c r).curvature_symm accepted.valid (computes r c) fun d hd =>
      List.mem_range.mp (accepted.valid.covers.mem_iff.mp hd)
  · refine (accepted.curvature_eq_zero (computes r c) fun meet => ?_).trans ExactScalar.zero_eq.symm
    rcases Nat.le_total c r with le | le
    · exact free ((all r c).mpr ⟨le, meet⟩)
    · exact free' ((all c r).mpr ⟨le, meet.symm⟩)

/-- The compiled Hessian of an accepted model in which no temporary meets a
shadowed input has the second derivatives of the weighted dependents, as runs on
dual numbers over dual numbers give them: the graph of any selection of elements
has those at the elements, and with the default options the dense matrix has all
of them. -/
theorem Accepted.hessian_correct (accepted : m.Accepted)
    (exponents : m.Exponents (Exponent.Lowers 2))
    (unshadowed : ∀ l ∈ m.loops, l.Unshadowed) :
    (∀ elements, IsSelection m.domain m.domain elements → m.Fits elements.length →
      24 * m.range < 0x8000000000000000 →
      ∃ c : Compiled F, m.assemble true (fun asm => asm.hessian elements) = .ok c ∧
        ∀ xs ws, xs.length = m.domain → ws.length = m.range →
          ∃ vs, m.secondDerivatives xs ws elements = .ok vs ∧
            c.arena.evaluate c.outputs [xs, ws] = .ok vs) ∧
    (m.Room {} → ∃ (lib : Library σ F) (loaded : LoadedModel σ F), m.compile {} = .ok lib ∧
      lib.model m.name = .ok loaded ∧ ∀ xs ws, xs.length = m.domain → ws.length = m.range →
        ∃ rows, m.hessianRows xs ws = .ok rows ∧ loaded.hessian xs ws = pure rows) := by
  refine ⟨fun elements selection fits room =>
    accepted.evaluate_hessian exponents unshadowed selection fits room, fun room => ?_⟩
  obtain ⟨p, parts, sound, complete⟩ := accepted.exists_parts exponents room nofun nofun
  obtain ⟨lib, compiled, found⟩ := accepted.exists_library (σ := σ) parts sound
  have fits := (room.hessian parts.hessianLayout).1
  rw [Parts.size_hessianLayout] at fits
  exact ⟨lib, p.loaded m {}, compiled, found, fun xs ws domain range =>
    accepted.dense_hessian exponents unshadowed parts sound rfl fits (complete.hessian rfl)
      domain range⟩

theorem unshadowed_products : ∀ l ∈ (products ℚ).loops, l.Unshadowed := by
  intro l hl
  cases List.mem_singleton.mp hl
  exact Loop.unshadowed_of_nodup List.nodup_nil

/-- The products `2 * 7` and `3 * 7`, with weights `1` and `10`, and the square
of `7`, with weight `100`. -/
theorem hessian_products :
    (∃ c : Compiled ℚ, (products ℚ).assemble true (fun asm => asm.hessian [(2, 0), (0, 1), (2, 2)])
        = .ok c ∧ c.arena.evaluate c.outputs [[2, 3, 7], [1, 10, 100]] = .ok [7, 0, -24]) ∧
    ∃ (lib : Library Unit ℚ) (loaded : LoadedModel Unit ℚ), (products ℚ).compile {} = .ok lib ∧
      lib.model "products" = .ok loaded ∧
        loaded.hessian [2, 3, 7] [1, 10, 100] = pure [[0, 0, 7], [0, 0, 70], [7, 70, -24]] := by
  obtain ⟨graph, dense⟩ := (accepted_products (F := ℚ)).hessian_correct (σ := Unit)
    (exponents_products ℚ _) unshadowed_products
  constructor
  · obtain ⟨c, assembled, evaluates⟩ := graph [(2, 0), (0, 1), (2, 2)]
      ⟨by decide, by decide, by decide⟩ (fits_products ℚ (by decide)) (by decide)
    obtain ⟨vs, values, run⟩ := evaluates [2, 3, 7] [1, 10, 100] rfl rfl
    have here : (products ℚ).secondDerivatives [2, 3, 7] [1, 10, 100] [(2, 0), (0, 1), (2, 2)] =
        .ok [7, 0, -24] := by decide +kernel
    cases here.symm.trans values
    exact ⟨c, assembled, run⟩
  · obtain ⟨lib, loaded, compiled, found, evaluates⟩ := dense small_products.room
    obtain ⟨rows, values, call⟩ := evaluates [2, 3, 7] [1, 10, 100] rfl rfl
    have here : (products ℚ).hessianRows [2, 3, 7] [1, 10, 100] =
        .ok [[0, 0, 7], [0, 0, 70], [7, 70, -24]] := by decide +kernel
    cases here.symm.trans values
    exact ⟨lib, loaded, compiled, found, call⟩

end Model

end LoopDiff
