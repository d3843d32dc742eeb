import LoopDiff.Proofs.Graph.Termination
import LoopDiff.Proofs.Library.Graphs
import LoopDiff.Proofs.Library.Hessian

/-!
# LoopDiff.Proofs.Library.Mirrors

Outputs that stand for each other.

Of two elements of a Hessian that are the transpose of each other one is computed,
and the other names it after all loops have been added.  So in the finished graph
both are the same number, or the one above the diagonal is a synonym of whatever
the other has become, and every evaluation gives both the same value
(`Assembly.Finished.agree`).  This is a property of the graph: nothing is assumed
of the numbers.
-/

namespace LoopDiff

open Arena

variable {F : Type}

/-! ## Synonyms -/

namespace Synonym

variable {a : Sketch F} {v w : Value F} (h : Synonym a v w)

include h

/-- A synonym is a number just if it names one. -/
theorem const_iff (x : F) : v = .const x ↔ w = .const x := by
  cases h with
  | known => exact Iff.rfl
  | node hs => exact iff_of_false nofun nofun

/-- A synonym has the value of what it names. -/
theorem eq_of_lasts {arrays : List (Array F)} {m : Memory F}
    (ordered : Problem.Ordered ⟨a.arena, arrays⟩ m) {x y : F} (hx : Problem.Lasts m v x)
    (hy : Problem.Lasts m w y) : x = y := by
  cases h with
  | known => exact hx.trans hy.symm
  | node hs =>
      have source := ordered.synonym (node_eq_ok_iff.mp hs).2 rfl rfl hx
      exact Option.some.inj (source.symm.trans hy)

end Synonym

variable [Scalar F]

/-! ## Outputs that agree -/

/-- Two outputs of a graph are the same number, or both are nodes, and whenever the
graph is evaluated they have the same value. -/
structure Compiled.Agree (c : Compiled F) (j k : Nat) : Prop where
  left : j < c.outputs.length
  right : k < c.outputs.length
  const (x : F) : c.outputs[j]? = some (.const x) ↔ c.outputs[k]? = some (.const x)
  value {inputs : List (List F)} {ys : List F} : c.arena.evaluate c.outputs inputs = .ok ys →
    ∃ y, ys[j]? = some y ∧ ys[k]? = some y

namespace Compiled

variable {c : Compiled F} {j k : Nat}

theorem Agree.symm (h : c.Agree j k) : c.Agree k j where
  left := h.right
  right := h.left
  const x := (h.const x).symm
  value evaluated := by
    obtain ⟨y, hj, hk⟩ := h.value evaluated
    exact ⟨y, hk, hj⟩

theorem agree_refl (grounded : c.arena.Grounded) (lt : j < c.outputs.length) : c.Agree j j where
  left := lt
  right := lt
  const _ := Iff.rfl
  value evaluated := by
    obtain ⟨m, -, lasts⟩ := grounded.exists_ordered evaluated
    obtain ⟨y, hy, -⟩ := exists_right_of_forall₂ lasts (List.getElem?_eq_getElem lt)
    exact ⟨y, hy, hy⟩

end Compiled

/-! ## Graphs -/

variable {m : Model F} {c : Compiled F}

namespace Assembly.Finished

variable {p : Assembler} {asm : Assembly F} {stages : Stages F} {course : Course F}
  (h : Finished stages m p c.outputs.toArray course ⟨c.arena⟩)

include h

theorem length_outputs : c.outputs.length = p.size m := by
  rw [← List.size_toArray, h.slots.size_eq, h.before.size_eq]

/-- An output that names another agrees with it. -/
theorem agree (grounded : c.arena.Grounded) (sketched : stages.Sketched asm m p) {j k : Nat}
    (mirrors : p.Mirrors j k) : c.Agree j k := by
  have lt : j < c.outputs.length := h.length_outputs ▸ mirrors.lt_size
  have hv := List.getElem?_eq_getElem lt
  obtain ⟨w, hw, synonym⟩ := h.slots.synonym (sketched.mirrors.mpr mirrors)
    ((List.getElem?_toArray ..).trans hv)
  rw [List.getElem?_toArray] at hw
  refine ⟨lt, (List.getElem?_eq_some_iff.mp hw).1, fun x => ?_, fun {inputs ys} evaluated => ?_⟩
  · rw [hv, hw, Option.some_inj, Option.some_inj]
    exact synonym.const_iff x
  · obtain ⟨memory, ordered, lasts⟩ := grounded.exists_ordered evaluated
    obtain ⟨x, hx, left⟩ := exists_right_of_forall₂ lasts hv
    obtain ⟨y, hy, right⟩ := exists_right_of_forall₂ lasts hw
    exact ⟨x, hx, synonym.eq_of_lasts ordered left right ▸ hy⟩

end Assembly.Finished

namespace Model

/-- Outputs for elements that are the transpose of each other agree. -/
theorem Accepted.hessian_agree (accepted : m.Accepted) {elements : List (Nat × Nat)}
    (assembled : m.assemble true (fun asm => asm.hessian elements) = .ok c) :
    elements.Nodup ∧ ∀ j k row col : Nat, elements[j]? = some (row, col) →
      elements[k]? = some (col, row) → c.Agree j k := by
  obtain ⟨course, run⟩ :=
    (assemble_eq_ok_iff (p := .hessian elements)).mp assembled
  have grounded := accepted.grounded run
  obtain ⟨asm, stages, made, sketched, finished⟩ := accepted.exists_stages run
  obtain ⟨layout, found, -⟩ := bind_eq_ok made
  have nodup := (Layout.nodup_of_ofElements found).1
  refine ⟨nodup, fun j k row col hj hk => ?_⟩
  rcases Nat.lt_trichotomy row col with above | rfl | below
  · exact finished.agree grounded sketched ⟨(row, col), above, hj, hk⟩
  · -- an element of the diagonal is its own transpose, and is there once
    have lt := (List.getElem?_eq_some_iff.mp hj).1
    obtain rfl := (List.getElem?_inj lt nodup).mp (hj.trans hk.symm)
    exact Compiled.agree_refl grounded (finished.length_outputs ▸ lt)
  · exact (finished.agree grounded sketched ⟨(col, row), below, hk, hj⟩).symm

/-- A list of elements has a layout unless one of them is requested twice, and the
failure names such an element.  In a layout every position either computes the element
on or below the diagonal that stands for its own, or names the position that computes
its transpose, and not both.  In a graph that an accepted model is assembled to, which
there is for any elements that it supports, two outputs for elements that are the
transpose of each other are the same number or both nodes, and have the same value
whenever the graph is evaluated. -/
theorem Accepted.hessian_mirrors (accepted : m.Accepted) (elements : List (Nat × Nat)) :
    ((∃ r c : Nat, Layout.ofElements elements = .error (.error (.repeatedHessianElement r c))) ↔
      ∃ e, 1 < elements.count e) ∧
    (∀ f, Layout.ofElements elements = .error f →
      ∃ r c : Nat, 1 < elements.count (r, c) ∧ f = .error (.repeatedHessianElement r c)) ∧
    (∀ layout, Layout.ofElements elements = .ok layout → layout.Partitions elements) ∧
    (m.Supports (.hessian elements) →
      ∃ g : Compiled F, m.assemble true (fun asm => asm.hessian elements) = .ok g) ∧
    ∀ g : Compiled F, m.assemble true (fun asm => asm.hessian elements) = .ok g →
      elements.Nodup ∧ ∀ j k r c : Nat, elements[j]? = some (r, c) → elements[k]? = some (c, r) →
        g.Agree j k :=
  ⟨Layout.exists_ofElements_eq_error, fun _ => Layout.ofElements_eq_error,
    fun _ => Layout.partitions_of_ofElements,
    accepted.exists_assemble (p := .hessian elements), fun _ => accepted.hessian_agree⟩

/-- The upper of two elements comes after the lower one, and has its value. -/
theorem hessian_mirrors_products : ∃ g : Compiled ℚ,
    (products ℚ).assemble true (fun asm => asm.hessian [(2, 0), (0, 2)]) = .ok g ∧
      g.arena.evaluate g.outputs [[1, 2, 3], [5, 1, 1]] = .ok [15, 15] ∧ g.Agree 0 1 := by
  have selection : IsSelection (products ℚ).domain (products ℚ).domain [(2, 0), (0, 2)] :=
    ⟨by decide, by decide, by decide⟩
  obtain ⟨g, assembled, evaluates⟩ := (accepted_products (F := ℚ)).evaluate_hessian
    (exponents_products ℚ _) unshadowed_products selection (fits_products ℚ (by decide))
    (by decide)
  obtain ⟨vs, values, evaluated⟩ := evaluates [1, 2, 3] [5, 1, 1] rfl rfl
  have here : (products ℚ).secondDerivatives [1, 2, 3] [5, 1, 1] [(2, 0), (0, 2)] =
      .ok [15, 15] := by decide +kernel
  cases here.symm.trans values
  obtain ⟨-, -, -, -, agree⟩ := (accepted_products (F := ℚ)).hessian_mirrors [(2, 0), (0, 2)]
  exact ⟨g, assembled, evaluated, (agree g assembled).2 0 1 2 0 rfl rfl⟩

end Model

end LoopDiff
