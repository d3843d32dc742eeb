import LoopDiff.Library.Compile
import LoopDiff.Proofs.Maps
import LoopDiff.Proofs.Model.Dependency

/-!
# LoopDiff.Proofs.Library.Layouts

The layouts of compiled derivatives.

The elements of a layout are all different and lie within the matrix
(`IsSelection`), be they asked for or found by the sparsity of the model.
The Jacobian layout that is found has all elements at which a dependent
depends on an independent, the Hessian layout one of every two mirrored
elements at which independents meet.
-/

namespace LoopDiff

open Std (TreeSet)

/-- Elements of a matrix, none of them twice. -/
structure IsSelection (rows cols : Nat) (elements : List (Nat × Nat)) : Prop where
  nodup : elements.Nodup
  row_lt {e : Nat × Nat} : e ∈ elements → e.1 < rows
  col_lt {e : Nat × Nat} : e ∈ elements → e.2 < cols

/-- A matrix has no more elements than places. -/
theorem IsSelection.length_le {rows cols : Nat} {elements : List (Nat × Nat)}
    (h : IsSelection rows cols elements) : elements.length ≤ rows * cols := by
  have subset : elements ⊆ List.range rows ×ˢ List.range cols := fun e he =>
    List.pair_mem_product.mpr ⟨List.mem_range.mpr (h.row_lt he), List.mem_range.mpr (h.col_lt he)⟩
  have le := (List.subperm_of_subset h.nodup subset).length_le
  rwa [List.length_product, List.length_range, List.length_range] at le

/-! ## Layouts of sets -/

namespace Sparsity

@[simp] theorem size_ofEntries (rows cols : Nat) (elements : List (Nat × Nat)) :
    (ofEntries rows cols elements).size = elements.length :=
  List.length_map ..

/-- The elements of the columns of each row. -/
def listed (sets : List IndexSet) : List (Nat × Nat) :=
  sets.zipIdx.flatMap fun (cols, row) => cols.toList.map fun col => (row, col)

theorem ofSets_eq (cols : Nat) (sets : List IndexSet) :
    ofSets cols sets = ofEntries sets.length cols (listed sets) :=
  rfl

theorem mem_listed {sets : List IndexSet} {row col : Nat} :
    (row, col) ∈ listed sets ↔ col ∈ sets.getD row ∅ := by
  rw [← exists_mem_row, listed, List.mem_flatMap]
  constructor
  · rintro ⟨⟨cols, row'⟩, mem, h⟩
    obtain ⟨col', hcol, eq⟩ := List.mem_map.mp h
    cases eq
    exact ⟨cols, List.mem_zipIdx_iff_getElem?.mp mem, TreeSet.mem_toList.mp hcol⟩
  · rintro ⟨cols, hrow, hcol⟩
    exact ⟨(cols, row), List.mem_zipIdx_iff_getElem?.mpr hrow,
      List.mem_map.mpr ⟨col, TreeSet.mem_toList.mpr hcol, rfl⟩⟩

theorem nodup_listed (sets : List IndexSet) : (listed sets).Nodup := by
  refine List.nodup_flatMap.mpr ⟨fun e _ => ?_, ?_⟩
  · exact (nodup_toList e.1).map fun _ _ eq => (Prod.ext_iff.mp eq).2
  · -- different rows have different elements
    have distinct : sets.zipIdx.Pairwise fun e e' => e.2 ≠ e'.2 := by
      rw [← List.pairwise_map, List.zipIdx_map_snd]
      exact List.nodup_range'
    refine distinct.imp fun ne => List.disjoint_left.mpr fun e he he' => ne ?_
    obtain ⟨_, -, rfl⟩ := List.mem_map.mp he
    obtain ⟨_, -, eq⟩ := List.mem_map.mp he'
    exact (Prod.ext_iff.mp eq).1.symm

end Sparsity

/-! ## Layouts of models -/

namespace Model

variable {F : Type} {m : Model F}

theorem checkElements_eq {elements : List (Nat × Nat)} {rows cols : Nat} {what : String}
    (h : IsSelection rows cols elements) : checkElements elements rows cols what = .ok () := by
  have none : (elements.find? fun e => rows ≤ e.1 || cols ≤ e.2) = none := by
    refine List.find?_eq_none.mpr fun e he => ?_
    simpa using ⟨h.row_lt he, h.col_lt he⟩
  rw [checkElements, none]

/-- The layout of a Jacobian has the elements that were asked for, or all
that can be nonzero. -/
theorem Accepted.exists_jacobianLayout (accepted : m.Accepted)
    {requested : Option (List (Nat × Nat))}
    (selection : ∀ es, requested = some es → IsSelection m.range m.domain es) :
    ∃ es, m.jacobianLayoutFor requested = .ok (Sparsity.ofEntries m.range m.domain es) ∧
      IsSelection m.range m.domain es ∧
      (requested = none → ∀ d < m.range, ∀ j, (d, j) ∈ es ↔ m.Depends d j) := by
  cases requested with
  | some es =>
      refine ⟨es, ?_, selection es rfl, nofun⟩
      rw [jacobianLayoutFor, checkElements_eq (selection es rfl)]
      rfl
  | none =>
      obtain ⟨sets, hs, length, mem⟩ := exists_ok_of_yields accepted.yields_jacobianSparsity
      refine ⟨Sparsity.listed sets, ?_, ⟨Sparsity.nodup_listed sets, ?_, ?_⟩, ?_⟩
      · rw [jacobianLayoutFor, jacobianLayout, bind_of_ok hs, Sparsity.ofSets_eq, length]
        rfl
      · rintro ⟨d, j⟩ he
        obtain ⟨row, hrow, -⟩ := exists_mem_row.mpr (Sparsity.mem_listed.mp he)
        exact length ▸ (List.getElem?_eq_some_iff.mp hrow).1
      · rintro ⟨d, j⟩ he
        have hj := Sparsity.mem_listed.mp he
        obtain ⟨row, hrow, -⟩ := exists_mem_row.mpr hj
        have lt : d < m.range := length ▸ (List.getElem?_eq_some_iff.mp hrow).1
        exact accepted.depends_lt ((mem d lt j).mp hj)
      · intro _ d lt j
        rw [Sparsity.mem_listed, mem d lt j]

/-- The layout of a Hessian has the elements that were asked for, or the
lower triangle of all that can be nonzero. -/
theorem Accepted.exists_hessianLayout (accepted : m.Accepted)
    {requested : Option (List (Nat × Nat))}
    (selection : ∀ es, requested = some es → IsSelection m.domain m.domain es) :
    ∃ es, m.hessianLayoutFor requested = .ok (Sparsity.ofEntries m.domain m.domain es) ∧
      IsSelection m.domain m.domain es ∧
      (requested = none → ∀ r c, (r, c) ∈ es ↔ c ≤ r ∧ m.Meet r c) := by
  cases requested with
  | some es =>
      refine ⟨es, ?_, selection es rfl, nofun⟩
      rw [hessianLayoutFor, checkElements_eq (selection es rfl)]
      rfl
  | none =>
      obtain ⟨pairs, hp, mem⟩ := exists_ok_of_yields accepted.yields_hessianSparsity
      have within {e : Nat × Nat} (he : e ∈ pairs.toList.filter fun e => e.2 ≤ e.1) :
          e.1 < m.domain ∧ e.2 < m.domain :=
        accepted.meet_lt ((mem e.1 e.2).mp (TreeSet.mem_toList.mp (List.mem_filter.mp he).1))
      refine ⟨pairs.toList.filter fun e => e.2 ≤ e.1, ?_,
        ⟨(nodup_toList pairs).filter _, fun he => (within he).1, fun he => (within he).2⟩, ?_⟩
      · rw [hessianLayoutFor, hessianLayout, bind_of_ok hp]
        rfl
      · intro _ r c
        rw [List.mem_filter, TreeSet.mem_toList, mem, decide_eq_true_iff, and_comm]

end Model

end LoopDiff
