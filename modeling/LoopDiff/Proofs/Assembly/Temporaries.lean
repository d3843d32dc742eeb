import LoopDiff.Proofs.Assembly.Basic
import LoopDiff.Proofs.Model.Dependency
import LoopDiff.Proofs.Model.Derivatives
import LoopDiff.Proofs.Tape.Derivatives
import LoopDiff.Proofs.Tape.Dependency

/-!
# LoopDiff.Proofs.Assembly.Temporaries

Derivatives of the temporaries in an assembly.

The derivatives that are found stand for the derivatives of the temporaries,
and those that are not found are zero (`Assembly.Partials`): a temporary
does not depend on the independent, or its derivative is known to be zero
and was dropped.
-/

namespace LoopDiff

open Std (TreeMap TreeSet)

variable {F R : Type} [Scalar F] [Elementary R] [Reading F R] {inputs : List (Array F)}

/-! ## Rows -/

/-- Puts the values of a list of entries in rows, except for those known to
be zero. -/
def fillRows (n : Nat) (rows : Array (TreeMap Nat (Value F)))
    (entries : List ((Nat × Nat) × Value F)) : Array (TreeMap Nat (Value F)) :=
  entries.foldl (fun rows ((i, j), v) =>
    if v.isZero then rows else rows.modify (i - n) fun row => row.insert j v) rows

section

variable {n k j : Nat} {rows : Array (TreeMap Nat (Value F))}
  {entries : List ((Nat × Nat) × Value F)} {v : Value F}

omit [Scalar F] in
theorem getD_toList {α : Type} (xs : Array α) (i : Nat) (x : α) : xs.toList.getD i x = xs.getD i x := by
  rw [List.getD_eq_getElem?_getD, Array.getElem?_toList, Array.getD_eq_getD_getElem?]

theorem fillRows_cons (e : (Nat × Nat) × Value F) : fillRows n rows (e :: entries) =
    fillRows n (if e.2.isZero then rows else
      rows.modify (e.1.1 - n) fun row => row.insert e.1.2 e.2) entries :=
  rfl

omit [Scalar F] in
theorem getElem?_modifyRow (i j' : Nat) (w : Value F) :
    ((rows.modify i fun row => row.insert j' w).getD k ∅)[j]? =
      if i = k ∧ j' = j ∧ k < rows.size then some w else (rows.getD k ∅)[j]? := by
  rw [Array.getD_eq_getD_getElem?, Array.getElem?_modify, Array.getD_eq_getD_getElem?]
  by_cases here : i = k
  · by_cases lt : k < rows.size
    · rw [if_pos here, Array.getElem?_eq_getElem lt]
      simp [TreeMap.getElem?_insert, here, lt]
    · rw [if_pos here, Array.getElem?_eq_none (Nat.le_of_not_lt lt)]
      simp [lt]
  · rw [if_neg here, if_neg (fun h => here h.1)]

omit [Scalar F] in
theorem getElem?_emptyRows {count : Nat} :
    ((Array.replicate count (∅ : TreeMap Nat (Value F))).getD k ∅)[j]? = none := by
  rw [getD_replicate]
  exact TreeMap.getElem?_emptyc

theorem of_getElem?_fillRows (h : ((fillRows n rows entries).getD k ∅)[j]? = some v) :
    (rows.getD k ∅)[j]? = some v ∨ ∃ i, ((i, j), v) ∈ entries ∧ i - n = k := by
  induction entries generalizing rows with
  | nil => exact .inl h
  | cons e entries ih =>
      rw [fillRows_cons] at h
      rcases ih h with here | ⟨i, mem, eq⟩
      · by_cases zero : e.2.isZero = true
        · rw [if_pos zero] at here
          exact .inl here
        · rw [if_neg zero, getElem?_modifyRow] at here
          split at here
          case isTrue place =>
              obtain ⟨rfl, rfl, -⟩ := place
              cases here
              exact .inr ⟨_, List.mem_cons_self .., rfl⟩
          case isFalse => exact .inl here
      · exact .inr ⟨i, List.mem_cons_of_mem _ mem, eq⟩

theorem isZero_of_fillRows (h : ((fillRows n rows entries).getD k ∅)[j]? = none)
    (lt : k < rows.size) : (rows.getD k ∅)[j]? = none ∧
      ∀ i v, ((i, j), v) ∈ entries → i - n = k → v.isZero = true := by
  induction entries generalizing rows with
  | nil => exact ⟨h, fun _ _ mem => absurd mem List.not_mem_nil⟩
  | cons e entries ih =>
      rw [fillRows_cons] at h
      have head (free : (rows.getD k ∅)[j]? = none)
          (here : e.1.1 - n = k → e.1.2 = j → e.2.isZero = true)
          (rest : ∀ i v, ((i, j), v) ∈ entries → i - n = k → v.isZero = true) :
          (rows.getD k ∅)[j]? = none ∧
            ∀ i v, ((i, j), v) ∈ e :: entries → i - n = k → v.isZero = true := by
        refine ⟨free, fun i v mem eq => ?_⟩
        rcases List.mem_cons.mp mem with rfl | mem
        · exact here eq rfl
        · exact rest i v mem eq
      by_cases zero : e.2.isZero = true
      · rw [if_pos zero] at h
        obtain ⟨free, rest⟩ := ih h lt
        exact head free (fun _ _ => zero) rest
      · rw [if_neg zero] at h
        obtain ⟨free, rest⟩ := ih h (by rwa [Array.size_modify])
        rw [getElem?_modifyRow] at free
        by_cases place : e.1.1 - n = k ∧ e.1.2 = j ∧ k < rows.size
        · rw [if_pos place] at free
          cases free
        · rw [if_neg place] at free
          exact head free (fun eq eq' => absurd ⟨eq, eq', lt⟩ place) rest

end

/-! ## First derivatives -/

omit [Scalar F] in
theorem temporaryOutput_sub {o : Outer F} {i : Nat} (le : o.dependents.length ≤ i) :
    o.temporaryOutput (i - o.dependents.length) = i := by
  rw [Outer.temporaryOutput]
  omega

/-- The rows that are asked for: the dependencies of the temporaries. -/
def temporaryRows (o : Outer F) (sparsity : List IndexSet) : List IndexSet :=
  sparsity.zipIdx.map fun (row, i) => if i < o.dependents.length then ∅ else row

omit [Scalar F] in
theorem depends_temporaryRow {o : Outer F} {sparsity : List IndexSet} {k j : Nat}
    (depends : List.Forall₂ (fun i (row : IndexSet) => ∀ j, j ∈ row ↔ o.tape.DependsOn i j)
      o.tape.outputs sparsity) :
    (∃ row, (temporaryRows o sparsity)[k]? = some row ∧ j ∈ row) ↔
        o.dependents.length ≤ k ∧ k < o.tape.outputCount ∧
          o.tape.DependsOn (o.tape.outputAt k) j := by
  rw [← Tape.mem_row_iff depends, List.getD_eq_getElem?_getD, temporaryRows, List.getElem?_map,
    List.getElem?_zipIdx]
  cases sparsity[k]? with
  | none => simp
  | some row =>
      by_cases before : k < o.dependents.length
      · simp [before, Nat.not_le.mpr before]
      · simp [before, Nat.le_of_not_lt before]

omit [Scalar F] in
/-- The rows are as many as the outputs, and ask for inputs of the tape. -/
theorem fits_temporaryRows {o : Outer F} {sparsity : List IndexSet} (wf : o.tape.WellFormed)
    (depends : List.Forall₂ (fun i (row : IndexSet) => ∀ j, j ∈ row ↔ o.tape.DependsOn i j)
      o.tape.outputs sparsity) :
    (temporaryRows o sparsity).length = o.tape.outputCount ∧
      ∀ row ∈ temporaryRows o sparsity, ∀ j ∈ row, j < o.tape.inputCount := by
  constructor
  · rw [temporaryRows, List.length_map, List.length_zipIdx]
    exact depends.length_eq.symm
  · intro row hrow j hj
    obtain ⟨k, hk⟩ := List.mem_iff_getElem?.mp hrow
    exact wf.dependsOn_lt ((depends_temporaryRow depends).mp ⟨row, hk, hj⟩).2.2

namespace Assembly

/-- Derivatives of temporaries, by temporary and independent. -/
structure Partials (rows : List (TreeMap Nat (Value F))) (a : Arena F) (inputs : List (Array F))
    (m : Model F) (x : Nat → R) : Prop where
  found {k j : Nat} {v : Value F} : (rows.getD k ∅)[j]? = some v →
    ∀ it, a.Means inputs it v (m.temporaryPartial x j k)
  zero {k j : Nat} : k < Model.temporaryCount m.outer? → (rows.getD k ∅)[j]? = none →
    m.temporaryPartial x j k = 0

variable {asm : Assembly F} {a a' : Arena F} {m : Model F} {x : Nat → R}
  {rows : List (TreeMap Nat (Value F))}

theorem Partials.keep {P : Nat → Kind → Prop} (h : Partials rows a inputs m x)
    (low : ∀ i k, k.tier = 0 → P i k) (keeps : a.Keeps P a') : Partials rows a' inputs m x :=
  ⟨fun hv it => (h.found hv it).keep low keeps, h.zero⟩

theorem Partials.extend (h : Partials rows a inputs m x) (le : a ≤ a') :
    Partials rows a' inputs m x :=
  h.keep (fun _ _ _ => trivial) le

/-- What the rows have for a temporary and an independent, where nothing is
zero. -/
theorem Partials.getD (h : Partials rows a inputs m x) {k : Nat}
    (lt : k < Model.temporaryCount m.outer?) (j : Nat) (it : Option Nat) :
    a.Means inputs it ((rows.getD k ∅).getD j (.const Scalar.zero)) (m.temporaryPartial x j k) := by
  rw [TreeMap.getD_eq_getD_getElem?]
  cases hv : (rows.getD k ∅)[j]? with
  | some v => exact h.found hv it
  | none =>
      rw [h.zero lt hv]
      exact Arena.means_zero

theorem Ready.yields_temporaryJacobian [PowerRule R] (ready : asm.Ready a inputs m x)
    (accepted : m.Accepted) (exponents : m.Exponents (Exponent.Lowers 1)) :
    Yields asm.temporaryJacobian a fun rows a' => Partials rows a' inputs m x := by
  rw [temporaryJacobian, ready.model]
  cases ho : m.outer? with
  | none =>
      refine yields_pure ⟨fun hv => by simp at hv, fun lt => ?_⟩
      simp [ho, Model.temporaryCount] at lt
  | some o =>
      have wf := accepted.outerTape ho
      have valid := accepted.outer ho
      obtain ⟨sparsity, hs, depends⟩ := exists_ok_of_yields wf.yields_jacobianSparsity
      refine Recording.ends_lift_bind hs ?_
      refine Yields.bind (Yields.all fun it => wf.yields_jacobianEntries
        (Interpretation.recorded R inputs it)
        ((exponents.1 o ho).mono (Interpretation.takes_recorded inputs it).dual) ?_
          (ready.independents.means it) ?_ ?_) fun E a₁ le means => ?_
      · rw [Array.length_toList, ready.independents.size_eq, accepted.valid.outerInputs ho]
      · exact (fits_temporaryRows wf depends).1
      · exact (fits_temporaryRows wf depends).2
      · have getD (k : Nat) : (E.toList.foldl (fun rows ((i, j), v) =>
            if v.isZero then rows else rows.modify (i - o.dependents.length) fun row => row.insert j v)
            (Array.replicate o.temporaryCount ∅)).toList.getD k ∅ =
              (fillRows o.dependents.length (Array.replicate o.temporaryCount ∅) E.toList).getD k ∅ :=
          getD_toList ..
        refine yields_pure ⟨fun {k j v} hv it => ?_, fun {k j} lt free => ?_⟩
        · rw [getD] at hv
          rcases of_getElem?_fillRows hv with hv | ⟨i, mem, rfl⟩
          · rw [getElem?_emptyRows] at hv
            cases hv
          · have hv := TreeMap.mem_toList_iff_getElem?_eq_some.mp mem
            have hi := ((depends_temporaryRow depends).mp (((means it).1 (i, j)).mp
              (TreeMap.mem_iff_isSome_getElem?.mpr (by rw [hv]; rfl)))).1
            rw [Model.temporaryPartial_eq ho, temporaryOutput_sub hi]
            exact (means it).2 _ v hv
        · rw [getD] at free
          rw [ho] at lt
          have inside : o.temporaryOutput k < o.tape.outputCount := by
            have := valid.outputs
            rw [Outer.temporaryOutput]
            exact this ▸ Nat.add_lt_add_left lt _
          rw [Model.temporaryPartial_eq ho]
          by_cases h : o.tape.DependsOn (o.tape.outputAt (o.temporaryOutput k)) j
          · have mem := ((means none).1 (o.temporaryOutput k, j)).mpr
              ((depends_temporaryRow depends).mpr ⟨Nat.le_add_right .., inside, h⟩)
            have hv := TreeMap.getElem?_eq_some_getElem mem
            refine ((means none).2 _ _ hv).isZero ((isZero_of_fillRows free ?_).2 _ _
              (TreeMap.mem_toList_iff_getElem?_eq_some.mpr hv) ?_)
            · rwa [Array.size_replicate]
            · exact Nat.add_sub_cancel_left ..
          · exact wf.partialAt_eq_zero x h

/-- The derivatives are recorded only if they are needed. -/
theorem Ready.yields_neededJacobian [PowerRule R] (ready : asm.Ready a inputs m x)
    (accepted : m.Accepted) (exponents : m.Exponents (Exponent.Lowers 1))
    (needed : Bool) :
    Yields (asm.neededJacobian needed) a fun rows a' =>
      needed = true → Partials rows a' inputs m x := by
  cases needed with
  | true => exact (ready.yields_temporaryJacobian accepted exponents).mono fun _ _ _ h _ => h
  | false => exact yields_pure (absurd · (by simp))

/-- A value of a loop body, times the derivative of the temporary that it
goes on through. -/
theorem yields_chained {l : Loop F} {n : Nat} (pos : 0 < n) {v : Value F} {y : Nat → R}
    (hv : ∀ it < n, a.Means inputs (some it) v (y it)) {input : Nat} {chain : Option Nat}
    (temporaries : ∀ t ∈ l.temporaries, t < Model.temporaryCount m.outer?)
    (behind : ∀ j, chain = some j → Partials rows a inputs m x ∧
      ∃ t, l.temporaryOf? input = some t) :
    Yields (chained l rows input chain v) a fun v a' => ∀ it < n,
      a'.Means inputs (some it) v (y it * chain.elim 1 fun j => m.inputPartial l x it j input) := by
  cases chain with
  | none =>
      simp only [chained]
      refine yields_pure fun it hit => ?_
      rw [Option.elim_none, mul_one]
      exact hv it hit
  | some j =>
      obtain ⟨partials, t, ht⟩ := behind j rfl
      have dz := partials.getD (temporaries t (Loop.mem_of_temporaryOf? ht)) j
      simp only [chained, ht]
      refine Yields.allBelow pos fun it hit => Recording.yields_reporting
        ((Value.yields_binary .mul (hv it hit) (dz (some it))).mono fun v a' _ product => ?_)
      rw [Option.elim_some, Model.inputPartial_eq, ht]
      exact product

/-! ## Second derivatives -/

omit [Scalar F] [Reading F R] in
theorem weighted_single {n k : Nat} (lt : k < n) (o : Nat → Nat) (τ : Nat → R) :
    Tape.weighted n o (fun i => if i = k then 1 else 0) τ = τ (o k) := by
  simp [Tape.weighted, lt]

/-- The second derivatives of a temporary are found at the requested pairs
that meet in it. -/
theorem Ready.yields_temporaryHessian [PowerRule R] (ready : asm.Ready a inputs m x)
    (accepted : m.Accepted)
    (exponents : m.Exponents (Exponent.Lowers 2))
    {o : Outer F} (ho : m.outer? = some o) {k : Nat} (lt : k < o.temporaryCount)
    (requested : List (Nat × Nat)) :
    Yields (asm.temporaryHessian k requested) a fun E a' => ∀ it,
      (Interpretation.recorded R inputs it).meansMap a' E (fun e => e ∈ requested ∧
        o.tape.Meet [o.tape.outputAt (o.temporaryOutput k)] e.1 e.2)
        fun e => o.tape.secondAt x e.1 e.2 (o.tape.outputAt (o.temporaryOutput k)) := by
  have wf := accepted.outerTape ho
  have inside : o.temporaryOutput k < o.tape.outputCount := by
    rw [Outer.temporaryOutput, ← (accepted.outer ho).outputs]
    exact Nat.add_lt_add_left lt _
  obtain ⟨sparsity, hs, meets⟩ :=
    exists_ok_of_yields (accepted.yields_temporaryHessianSparsity ho lt)
  rw [temporaryHessian, ready.model, ho]
  refine Recording.ends_lift_bind hs ?_
  have asked (e : Nat × Nat) : e ∈ (TreeSet.ofList (requested.filter sparsity.contains) : PairSet) ↔
      e ∈ requested ∧ o.tape.Meet [o.tape.outputAt (o.temporaryOutput k)] e.1 e.2 := by
    simp [← meets]
  refine (Yields.all fun it => wf.yields_hessianEntries (Interpretation.recorded R inputs it)
    (ω := fun i => if i = o.temporaryOutput k then 1 else 0)
    ((exponents.1 o ho).mono (Interpretation.takes_recorded inputs it).dual.dual) ?_
    (ready.independents.means it) ?_ ?_ ?_).mono fun E a' _ means it => ?_
  · rw [Array.length_toList, ready.independents.size_eq, accepted.valid.outerInputs ho]
  · rw [List.length_map, List.length_range]
  · intro i v hv
    obtain ⟨lt, eq⟩ := Array.getElem?_eq_some_iff.mp hv
    rw [← eq]
    simp only [List.getElem_toArray, List.getElem_map, List.getElem_range]
    split
    · exact Embeds.embed_one (F := F) (R := R) ▸ Arena.means_const _
    · exact Arena.means_zero
  · rintro ⟨i, j⟩ mem
    exact wf.meet_lt ((asked _).mp mem).2
  · have found : (Interpretation.recorded R inputs it).meansMap a' E _ _ :=
      Fills.congr (means it) asked
    simpa only [weighted_single inside] using found

end Assembly

end LoopDiff
