import LoopDiff.Proofs.Library.Graphs

/-!
# LoopDiff.Proofs.Library.Sparse

Graphs are zero outside the sparsity of the model.

The sparsity of a model composes the sets of what its tapes depend on; the graphs
collect streams of derivatives, loop by loop.  They agree on what can be nonzero:
an output at any other element is the number zero, known when the graph is
recorded (`Model.Accepted.zero_outside_sparsity`).  Both are compared with the
dependencies of the model, which the stages of an assembly never leave
(`Assembly.Finished.eq_zero`).
-/

namespace LoopDiff

open Std (TreeSet)

variable {F : Type} [Scalar F] {m : Model F}

namespace Assembly

variable {asm : Assembly F} {p : Assembler} {stages : Stages F} {outputs : Outputs F}
  {course : Course F} {a : Sketch F} {k : Nat} {v : Value F}

/-- An output that no dependency touches and that names no other. -/
theorem Finished.eq_zero_of_free (h : Finished stages m p outputs course a)
    (free : k ∉ stages.synonyms.map Prod.fst) (untouched : ¬m.Touches k p)
    (hv : outputs[k]? = some v) : v = .const Scalar.zero := by
  have none : ¬stages.Own m p k := fun own => untouched own.1
  obtain ⟨s, hs, slot⟩ := h.exists_slot free hv
  rw [Course.ends, h.closed.ends_eq_nil none] at slot
  cases slot with
  | plain => exact h.before.zero hs none
  | merged some _ => exact absurd rfl some

omit [Scalar F] in
/-- A mirrored output is touched if the output that it names is. -/
theorem touches_of_mirrors {source : Nat} (h : p.Mirrors k source) (touches : m.Touches source p) :
    m.Touches k p := by
  cases p with
  | hessian elements =>
      obtain ⟨e, -, here, there⟩ := h
      obtain ⟨e', there', meet⟩ := touches
      cases there.symm.trans there'
      exact ⟨e, here, meet.symm⟩
  | _ => exact h.elim

/-- An output that no dependency touches is zero. -/
theorem Finished.eq_zero (h : Finished stages m p outputs course a)
    (sketched : stages.Sketched asm m p) (untouched : ¬m.Touches k p)
    (hv : outputs[k]? = some v) : v = .const Scalar.zero := by
  by_cases mirrored : k ∈ stages.synonyms.map Prod.fst
  · obtain ⟨⟨_, source⟩, mem, rfl⟩ := List.mem_map.mp mirrored
    obtain ⟨w, hw, synonym⟩ := h.slots.synonym mem hv
    have zero := h.eq_zero_of_free (sketched.source_free mem)
      (fun touches => untouched (touches_of_mirrors (sketched.mirrors.mp mem) touches)) hw
    cases synonym with
    | known => exact zero
    | node _ => cases zero
  · exact h.eq_zero_of_free mirrored untouched hv

end Assembly

/-- A graph has one output for each element, which is the number zero if the element
is outside a set. -/
def Compiled.ZeroOutside (c : Compiled F) (elements : List (Nat × Nat)) (inside : Nat × Nat → Prop) :
    Prop :=
  c.outputs.length = elements.length ∧ ∀ (k : Nat) (e : Nat × Nat), elements[k]? = some e →
    ¬inside e → c.outputs[k]? = some (.const Scalar.zero)

theorem Compiled.ZeroOutside.mono {c : Compiled F} {elements : List (Nat × Nat)}
    {inside inside' : Nat × Nat → Prop} (h : c.ZeroOutside elements inside)
    (imp : ∀ e ∈ elements, inside e → inside' e) : c.ZeroOutside elements inside' :=
  ⟨h.1, fun k e he outside => h.2 k e he fun here => outside (imp e (List.mem_of_getElem? he) here)⟩

namespace Model

variable {c : Compiled F} {elements : List (Nat × Nat)}

/-- A graph is zero where no dependency touches it. -/
theorem Accepted.output_eq_zero (accepted : m.Accepted) {p : Assembler}
    (h : m.assemble p.weighted (fun asm => p.outputs asm) = .ok c) :
    c.outputs.length = p.size m ∧ ∀ k < p.size m, ¬m.Touches k p →
      c.outputs[k]? = some (.const Scalar.zero) := by
  obtain ⟨course, run⟩ := assemble_eq_ok_iff.mp h
  obtain ⟨asm, stages, sketched, finished⟩ := accepted.finished run
  have size : c.outputs.length = p.size m := by
    rw [← List.size_toArray, finished.slots.size_eq, finished.before.size_eq]
  refine ⟨size, fun k lt untouched => ?_⟩
  have zero : c.outputs[k] = .const Scalar.zero :=
    finished.eq_zero sketched untouched (by simp)
  rw [List.getElem?_eq_getElem (size ▸ lt), zero]

theorem Accepted.zeroOutside_jacobian (accepted : m.Accepted)
    (h : m.assemble false (fun asm => asm.jacobian elements) = .ok c) :
    c.ZeroOutside elements fun e => m.Depends e.1 e.2 := by
  obtain ⟨length, zero⟩ := accepted.output_eq_zero (p := .jacobian elements) h
  refine ⟨length, fun k e he free => zero k (List.getElem?_eq_some_iff.mp he).1 ?_⟩
  rintro ⟨_, he', depends⟩
  cases he.symm.trans he'
  exact free depends

theorem Accepted.zeroOutside_hessian (accepted : m.Accepted)
    (h : m.assemble true (fun asm => asm.hessian elements) = .ok c) :
    c.ZeroOutside elements fun e => m.Meet e.1 e.2 := by
  obtain ⟨length, zero⟩ := accepted.output_eq_zero (p := .hessian elements) h
  refine ⟨length, fun k e he free => zero k (List.getElem?_eq_some_iff.mp he).1 ?_⟩
  rintro ⟨_, he', meet⟩
  cases he.symm.trans he'
  exact free meet

/-- The elements outside the sparsity of a model are zero in every graph that is
assembled for them, and any elements of the matrices, none of them twice, have such a
graph.  So the layouts that are found leave out no element that a graph can give
another value to; the layout of the Hessian has one of two elements that mirror each
other. -/
theorem Accepted.zero_outside_sparsity (accepted : m.Accepted) :
    ∃ rows pairs jacobianLayout hessianLayout,
      m.jacobianSparsity = .ok rows ∧ m.jacobianLayout = .ok jacobianLayout ∧
      m.hessianSparsity = .ok pairs ∧ m.hessianLayout = .ok hessianLayout ∧
      (∀ elements, IsSelection m.range m.domain elements →
        (m.Supports (.jacobian elements) →
          ∃ c : Compiled F, m.assemble false (fun asm => asm.jacobian elements) = .ok c) ∧
        ∀ c : Compiled F, m.assemble false (fun asm => asm.jacobian elements) = .ok c →
          c.ZeroOutside elements (fun e => e.2 ∈ rows.getD e.1 ∅) ∧
          c.ZeroOutside elements (fun e => e ∈ jacobianLayout.entries)) ∧
      ∀ elements, IsSelection m.domain m.domain elements →
        (m.Supports (.hessian elements) →
          ∃ c : Compiled F, m.assemble true (fun asm => asm.hessian elements) = .ok c) ∧
        ∀ c : Compiled F, m.assemble true (fun asm => asm.hessian elements) = .ok c →
          c.ZeroOutside elements (fun e => e ∈ pairs) ∧
          c.ZeroOutside elements
            (fun e => e ∈ hessianLayout.entries ∨ e.swap ∈ hessianLayout.entries) := by
  obtain ⟨rows, hrows, -, depends⟩ := exists_ok_of_yields accepted.yields_jacobianSparsity
  obtain ⟨pairs, hpairs, meet⟩ := exists_ok_of_yields accepted.yields_hessianSparsity
  refine ⟨rows, pairs, .ofSets m.domain rows, .ofEntries m.domain m.domain
    (pairs.toList.filter fun e => e.2 ≤ e.1), hrows, ?_, hpairs, ?_, fun elements selection =>
      ⟨accepted.exists_assemble (p := .jacobian elements), fun c assembled => ?_⟩,
    fun elements _ =>
      ⟨accepted.exists_assemble (p := .hessian elements), fun c assembled => ?_⟩⟩
  · rw [jacobianLayout, bind_of_ok hrows]
    rfl
  · rw [hessianLayout, bind_of_ok hpairs]
    rfl
  · have zero : c.ZeroOutside elements fun e => e.2 ∈ rows.getD e.1 ∅ :=
      (accepted.zeroOutside_jacobian assembled).mono fun e he =>
        (depends e.1 (selection.row_lt he) e.2).mpr
    refine ⟨zero, zero.mono fun e _ here => ?_⟩
    rw [Sparsity.ofSets_eq, Sparsity.entries_ofEntries]
    exact Sparsity.mem_listed.mpr here
  · have zero := accepted.zeroOutside_hessian assembled
    refine ⟨zero.mono fun e _ => (meet e.1 e.2).mpr, zero.mono fun e _ here => ?_⟩
    rw [Sparsity.entries_ofEntries]
    -- one of the two is in the lower triangle
    rcases le_total e.2 e.1 with lower | upper
    · exact .inl (List.mem_filter.mpr
        ⟨TreeSet.mem_toList.mpr ((meet e.1 e.2).mpr here), by simpa using lower⟩)
    · exact .inr (List.mem_filter.mpr
        ⟨TreeSet.mem_toList.mpr ((meet e.2 e.1).mpr here.symm), by simpa using upper⟩)

/-- The product of the first independent with a temporary does not depend on the
second, and these two do not meet. -/
theorem zero_outside_sparsity_products :
    (∃ c : Compiled ℚ, (products ℚ).assemble false (fun asm => asm.jacobian [(0, 0), (0, 1)]) =
      .ok c ∧ c.outputs[1]? = some (.const 0)) ∧
    ∃ c : Compiled ℚ, (products ℚ).assemble true (fun asm => asm.hessian [(2, 0), (1, 0)]) =
      .ok c ∧ c.outputs[1]? = some (.const 0) := by
  obtain ⟨rows, pairs, _, _, hrows, -, hpairs, -, jacobian, hessian⟩ :=
    (accepted_products (F := ℚ)).zero_outside_sparsity
  constructor
  · obtain ⟨assembles, zero⟩ := jacobian [(0, 0), (0, 1)] ⟨by decide, by decide, by decide⟩
    obtain ⟨c, assembled⟩ := assembles ⟨exponents_products ℚ _, fits_products ℚ (by decide),
      by decide, by decide, by decide⟩
    have outside : (products ℚ).jacobianSparsity.toOption.map (fun rows => (rows.getD 0 ∅).contains 1) =
        some false := by
      decide +kernel
    refine ⟨c, assembled, (zero c assembled).1.2 1 (0, 1) rfl fun here => ?_⟩
    rw [hrows] at outside
    cases (TreeSet.contains_iff_mem.mpr here).symm.trans (Option.some.inj outside)
  · obtain ⟨assembles, zero⟩ := hessian [(2, 0), (1, 0)] ⟨by decide, by decide, by decide⟩
    obtain ⟨c, assembled⟩ := assembles ⟨exponents_products ℚ _, fits_products ℚ (by decide),
      by decide, by decide, by decide, by decide⟩
    have outside : (products ℚ).hessianSparsity.toOption.map (fun pairs => pairs.contains (1, 0)) =
        some false := by
      decide +kernel
    refine ⟨c, assembled, (zero c assembled).1.2 1 (1, 0) rfl fun here => ?_⟩
    rw [hpairs] at outside
    cases (TreeSet.contains_iff_mem.mpr here).symm.trans (Option.some.inj outside)

end Model

end LoopDiff
