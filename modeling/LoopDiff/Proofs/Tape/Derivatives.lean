import LoopDiff.Proofs.Tape.Lenient
import LoopDiff.Proofs.Tape.Sweep
import LoopDiff.Tape.Derivatives

/-!
# LoopDiff.Proofs.Tape.Derivatives

Selected derivatives of a tape, over values that stand for ring elements.

`jacobianEntries` gives a value for each requested pair and for no other,
and it stands for the partial derivative; `hessianEntries` likewise for the
second derivatives of the weighted outputs.  Both work column by column, so
the invariant of a column fold says which pairs have been filled in so far,
and what is known of the values there (`Fills`).  On numbers that compute
exactly the values are the derivatives themselves, unless an exponent is too
low (`returns_gradient`, `returns_jacobianEntries`,
`returns_hessianEntries`).
-/

namespace LoopDiff

open Std

variable {m : Type → Type} {W F T R : Type} [Monad m] [MonadExceptOf Failure m]
  [Worlds m W] [Preorder W] [Scalar F] [Constants F T] [Arith m T] [Elementary R] [Embeds F R]
  (I : Interpretation m F T R) {w : W}

/-! ## Maps of values -/

/-- A map with values at the pairs that satisfy `P`, of which `Q` holds. -/
def Fills (E : PairMap T) (P : Nat × Nat → Prop) (Q : Nat × Nat → T → Prop) : Prop :=
  (∀ e, e ∈ E ↔ P e) ∧ ∀ e v, E[e]? = some v → Q e v

namespace Fills

variable {E : PairMap T} {P P' : Nat × Nat → Prop} {Q Q' : Nat × Nat → T → Prop}

theorem mono (h : Fills E P Q) (imp : ∀ e v, Q e v → Q' e v) : Fills E P Q' :=
  ⟨h.1, fun e v hv => imp e v (h.2 e v hv)⟩

theorem congr (h : Fills E P Q) (iff : ∀ e, P e ↔ P' e) : Fills E P' Q :=
  ⟨fun e => (h.1 e).trans (iff e), h.2⟩

theorem empty : Fills (∅ : PairMap T) (fun _ => False) Q :=
  ⟨fun e => by simp, fun e v hv => by simp at hv⟩

theorem insert {e : Nat × Nat} {v : T} (h : Fills E P Q) (hv : Q e v) :
    Fills (E.insert e v) (fun e' => e = e' ∨ P e') Q := by
  refine ⟨fun e' => ?_, fun e' v' hv' => ?_⟩
  · rw [TreeMap.mem_insert, Std.compare_eq_iff_eq, h.1 e']
  · rw [TreeMap.getElem?_insert] at hv'
    split at hv'
    case isTrue eq =>
        cases Std.compare_eq_iff_eq.mp eq
        cases hv'
        exact hv
    case isFalse => exact h.2 e' v' hv'

end Fills

namespace Interpretation

omit [MonadExceptOf Failure m] in
/-- A map with values at the pairs that satisfy `P`, where they stand for
`f`. -/
def meansMap (w : W) (E : PairMap T) (P : Nat × Nat → Prop) (f : Nat × Nat → R) : Prop :=
  Fills E P fun e v => I.means w v (f e)

variable {E : PairMap T} {P : Nat × Nat → Prop} {f : Nat × Nat → R}

omit [MonadExceptOf Failure m] in
/-- What a map stands for at a pair, where a missing pair is zero. -/
theorem meansMap.getD (h : I.meansMap w E P f) {e : Nat × Nat} (zero : ¬P e → f e = 0) :
    I.means w (E.getD e Constants.zero) (f e) := by
  rw [TreeMap.getD_eq_getD_getElem?]
  cases hv : E[e]? with
  | some v => exact h.2 e v hv
  | none =>
      have : ¬P e := fun mem => by
        rw [← h.1 e, TreeMap.mem_iff_isSome_getElem?, hv] at mem
        cases mem
      rw [zero this]
      exact I.zero w

end Interpretation

namespace Tape

/-! ## Columns -/

theorem mem_columnsOf {rows : List IndexSet} {j : Nat} :
    j ∈ columnsOf rows ↔ ∃ row ∈ rows, j ∈ row := by
  suffices h : ∀ columns : IndexSet,
      j ∈ rows.foldl (fun columns row => columns.insertMany row.toList) columns ↔
        j ∈ columns ∨ ∃ row ∈ rows, j ∈ row by
    rw [columnsOf, h]
    simp
  induction rows with
  | nil => simp
  | cons row rows ih =>
      intro columns
      rw [List.foldl_cons, ih, TreeSet.mem_insertMany_list]
      simp [or_assoc]

/-- The rows of each column of a list of pairs. -/
def columnMap (l : List (Nat × Nat)) : TreeMap Nat (List Nat) :=
  l.foldr (fun (i, j) rows => rows.insert j (i :: rows.getD j [])) ∅

theorem mem_columnMap {l : List (Nat × Nat)} {i j : Nat} :
    i ∈ (columnMap l).getD j [] ↔ (i, j) ∈ l := by
  induction l generalizing j with
  | nil => simp [columnMap]
  | cons e l ih =>
      rw [columnMap, List.foldr_cons, ← columnMap, TreeMap.getD_insert, List.mem_cons, ← ih]
      by_cases eq : e.2 = j
      · simp [eq, Prod.ext_iff]
      · simp [eq, Prod.ext_iff, Ne.symm eq]

theorem columnMap_ne_nil {l : List (Nat × Nat)} {j : Nat} {rows : List Nat}
    (h : (columnMap l)[j]? = some rows) : rows ≠ [] := by
  induction l generalizing j rows with
  | nil => simp [columnMap] at h
  | cons e l ih =>
      rw [columnMap, List.foldr_cons, ← columnMap, TreeMap.getElem?_insert] at h
      split at h
      · cases h
        exact List.cons_ne_nil _ _
      · exact ih h

theorem mem_rowsByColumn {pairs : PairSet} {j : Nat} {rows : List Nat} :
    (j, rows) ∈ rowsByColumn pairs ↔ (columnMap pairs.toList)[j]? = some rows :=
  TreeMap.mem_toList_iff_getElem?_eq_some

/-- The rows of the columns of some pairs are the pairs. -/
theorem exists_mem_rowsByColumn {pairs : PairSet} {i j : Nat} :
    (∃ rows, (j, rows) ∈ rowsByColumn pairs ∧ i ∈ rows) ↔ (i, j) ∈ pairs := by
  rw [← TreeSet.mem_toList, ← mem_columnMap, TreeMap.getD_eq_getD_getElem?]
  simp only [mem_rowsByColumn]
  cases (columnMap pairs.toList)[j]? <;> simp

/-- Every column has rows. -/
theorem exists_row {pairs : PairSet} {j : Nat} {rows : List Nat}
    (h : (j, rows) ∈ rowsByColumn pairs) : ∃ i, (i, j) ∈ pairs := by
  obtain ⟨i, hi⟩ := List.exists_mem_of_ne_nil rows (columnMap_ne_nil (mem_rowsByColumn.mp h))
  exact ⟨i, exists_mem_rowsByColumn.mp ⟨rows, h, hi⟩⟩

variable {t : Tape F} {xs : List T} {x : Nat → R}

theorem yields_seedInput [PowerRule R] {j : Nat} (lt : j < xs.length) (hx : I.meansAll w xs.toArray x) :
    Yields (seedInput xs j : m (List (Dual T))) w fun us w' =>
      us.length = xs.length ∧ I.dual.meansAll w' us.toArray (seeded x j) := by
  rw [seedInput, if_pos lt]
  refine yields_pure ⟨by simp, fun i u hu => ?_⟩
  rw [List.getElem?_toArray, List.getElem?_map] at hu
  obtain ⟨⟨z, i'⟩, hz, eq⟩ := Option.map_eq_some_iff.mp hu
  obtain ⟨z', hz', eq'⟩ := Option.map_eq_some_iff.mp (List.getElem?_zipIdx ▸ hz)
  cases eq'
  subst eq
  have hv := hx i z (by simpa using hz')
  simp only [Nat.zero_add, seeded]
  by_cases eq : i = j
  · rw [if_pos eq, if_pos eq]
    exact ⟨hv, I.one w⟩
  · rw [if_neg eq, if_neg eq]
    exact ⟨hv, I.zero w⟩

variable (wf : t.WellFormed)

include wf

/-- A forward sweep in the direction of one input. -/
theorem WellFormed.yields_seededSweep [PowerRule R] {j : Nat}
    (exponents : t.Exponents I.dual.exponent) (len : xs.length = t.inputCount)
    (hx : I.meansAll w xs.toArray x) (lt : j < t.inputCount) :
    Yields (do t.forwardSweep (← seedInput xs j) : m (Array (Dual T))) w fun values w' =>
      values.size = t.size ∧ I.dual.meansAll w' values (t.valueAt (seeded x j)) := by
  refine (yields_seedInput I (len ▸ lt) hx).bind fun us w₁ le₁ ⟨len', hu⟩ => ?_
  exact wf.yields_forwardSweep I.dual exponents (len'.trans len) hu

omit wf [Scalar F] [Constants F T] [Arith m T] [Elementary R] [Embeds F R] in
/-- The values of a column, next to those that are there. -/
theorem yields_jacobianColumn {Q : W → Nat × Nat → T → Prop} {rows : List IndexSet}
    {values : Array (Dual T)} {E : PairMap T} {D : Nat × Nat → Prop} {j : Nat}
    (count : rows.length = t.outputCount)
    (value : ∀ i o, t.outputs[i]? = some o →
      ∃ dual, values[o]? = some dual ∧ Q w (i, j) dual.eps) (hE : Fills E D (Q w)) :
    Yields ((rows.zip t.outputs).zipIdx.foldlM (fun entries ((row, o), i) => do
      if row.contains j then
        let dual : Dual T ← fetch values o
        return entries.insert (i, j) dual.eps
      else return entries) E : m (PairMap T)) w fun E' w' => w' = w ∧
        Fills E' (fun e => D e ∨ e.2 = j ∧ ∃ row, rows[e.1]? = some row ∧ j ∈ row) (Q w) := by
  refine (yields_foldlM (fun done E w' => w' = w ∧ Fills E (fun e =>
    D e ∨ e.2 = j ∧ e.1 < done.length ∧ ∃ row, rows[e.1]? = some row ∧ j ∈ row) (Q w))
      ?_ ?_).mono ?_
  · exact ⟨rfl, hE.congr fun e => by simp⟩
  · rintro done ⟨⟨row, o⟩, i⟩ rest E w₁ split - ⟨rfl, hE⟩
    have at_ : ((rows.zip t.outputs).zipIdx)[done.length]? = some ((row, o), i) := by simp [split]
    rw [List.getElem?_zipIdx] at at_
    obtain ⟨⟨row', o'⟩, hz, eq⟩ := Option.map_eq_some_iff.mp at_
    obtain ⟨hrow, ho⟩ := List.getElem?_zip_eq_some.mp hz
    cases eq
    simp only [Nat.zero_add, List.length_append, List.length_singleton] at value ⊢
    by_cases listed : row.contains j = true
    · rw [if_pos listed]
      obtain ⟨dual, hd, hQ⟩ := value _ _ ho
      refine yields_present_bind hd (yields_pure ⟨rfl, (hE.insert hQ).congr fun e => ?_⟩)
      obtain ⟨i', j'⟩ := e
      rw [Prod.mk.injEq]
      constructor
      · rintro (⟨rfl, rfl⟩ | hD | ⟨rfl, lt, hr⟩)
        · exact .inr ⟨rfl, Nat.lt_succ_self _, row, hrow, TreeSet.mem_iff_contains.mpr listed⟩
        · exact .inl hD
        · exact .inr ⟨rfl, lt.trans (Nat.lt_succ_self _), hr⟩
      · rintro (hD | ⟨rfl, lt, hr⟩)
        · exact .inr (.inl hD)
        · rcases Nat.lt_succ_iff_lt_or_eq.mp lt with lt | last
          · exact .inr (.inr ⟨rfl, lt, hr⟩)
          · exact .inl ⟨last.symm, rfl⟩
    · rw [if_neg listed]
      refine yields_pure ⟨rfl, hE.congr fun e => or_congr_right (and_congr_right fun _ => ?_)⟩
      constructor
      · rintro ⟨lt, hr⟩
        exact ⟨lt.trans (Nat.lt_succ_self _), hr⟩
      · rintro ⟨lt, row', hrow', hj⟩
        rcases Nat.lt_succ_iff_lt_or_eq.mp lt with lt | last
        · exact ⟨lt, row', hrow', hj⟩
        · rw [last, hrow] at hrow'
          cases hrow'
          exact absurd (TreeSet.mem_iff_contains.mp hj) listed
  · rintro E w₁ - ⟨rfl, hE⟩
    refine ⟨rfl, hE.congr fun e => or_congr_right (and_congr_right fun _ => ?_)⟩
    rw [List.length_zipIdx, List.length_zip, count, Tape.outputCount, Nat.min_self,
      and_iff_right_of_imp]
    rintro ⟨row, hrow, -⟩
    exact (List.getElem?_eq_some_iff.mp hrow).1.trans_eq count

omit wf [Elementary R] [Embeds F R] in
/-- Values are found at the requested positions and nowhere else, and what a
sweep in the direction of an input gives holds of those in its column. -/
theorem yields_requested {Q : W → Nat × Nat → T → Prop} {rows : List IndexSet}
    (later : ∀ w w' e v, w ≤ w' → Q w e v → Q w' e v) (count : rows.length = t.outputCount)
    (sweep : ∀ j w', w ≤ w' → (∃ row ∈ rows, j ∈ row) →
      Yields (do t.forwardSweep (← seedInput xs j) : m (Array (Dual T))) w' fun values w'' =>
        ∀ i o, t.outputs[i]? = some o → ∃ dual, values[o]? = some dual ∧ Q w'' (i, j) dual.eps) :
    Yields (t.jacobianEntries xs rows : m (PairMap T)) w fun E w' =>
      Fills E (fun e => ∃ row, rows[e.1]? = some row ∧ e.2 ∈ row) (Q w') := by
  refine yields_checkSize_bind count.symm ?_
  refine (yields_foldlM (fun done E w' => Fills E (fun e =>
    e.2 ∈ done ∧ ∃ row, rows[e.1]? = some row ∧ e.2 ∈ row) (Q w')) ?_ ?_).mono ?_
  · exact Fills.empty.congr fun e => by simp
  · intro columns j rest E w₁ split le₁ hE
    have mem : j ∈ columnsOf rows := by
      rw [← TreeSet.mem_toList, split]
      simp
    rw [← bind_assoc]
    refine (sweep j w₁ le₁ (mem_columnsOf.mp mem)).bind fun values w₂ le₂ value => ?_
    refine (yields_jacobianColumn count value (hE.mono fun e v => later _ _ e v le₂)).mono ?_
    rintro E w₃ - ⟨rfl, hE⟩
    refine hE.congr fun e => ?_
    rw [List.mem_append, List.mem_singleton, or_and_right]
    refine or_congr_right (and_congr_right fun eq => ?_)
    rw [eq]
  · rintro E w' - hE
    refine hE.congr fun e => ⟨fun h => h.2, ?_⟩
    rintro ⟨row, hrow, hj⟩
    refine ⟨?_, row, hrow, hj⟩
    exact TreeSet.mem_toList.mpr (mem_columnsOf.mpr ⟨row, List.mem_of_getElem? hrow, hj⟩)

/-- First derivatives are found at the requested positions and nowhere
else. -/
theorem WellFormed.yields_jacobianEntries [PowerRule R] {rows : List IndexSet}
    (exponents : t.Exponents I.dual.exponent) (len : xs.length = t.inputCount)
    (hx : I.meansAll w xs.toArray x) (count : rows.length = t.outputCount)
    (inside : ∀ row ∈ rows, ∀ j ∈ row, j < t.inputCount) :
    Yields (t.jacobianEntries xs rows : m (PairMap T)) w fun E w' =>
      I.meansMap w' E (fun e => ∃ row, rows[e.1]? = some row ∧ e.2 ∈ row)
        fun e => t.partialAt x e.2 (t.outputAt e.1) := by
  refine yields_requested (Q := fun w e v => I.means w v (t.partialAt x e.2 (t.outputAt e.1)))
    (fun _ _ _ _ le h => I.later le h) count fun j w₁ le₁ listed => ?_
  obtain ⟨row, hrow, hj⟩ := listed
  refine (wf.yields_seededSweep I exponents len (hx.later I le₁) (inside row hrow j hj)).mono ?_
  rintro values w₂ - ⟨size, hv⟩ i o ho
  have olt : o < values.size := size ▸ wf.output_lt o (List.mem_of_getElem? ho)
  have at_ := Array.getElem?_eq_getElem olt
  exact ⟨_, at_, outputAt_eq ho ▸ (hv o _ at_).2⟩

omit wf in
/-- The tangent of weighted partial derivatives with constant weights. -/
theorem eps_weighted_partialAt (ω : Nat → R) (x : Nat → R) (i j : Nat) :
    (weighted t.outputCount t.outputAt (fun k => ⟨ω k, 0⟩)
      (t.partialAt (seeded x j) i)).eps =
        weighted t.outputCount t.outputAt ω (t.secondAt x i j) := by
  rw [weighted, ← Dual.epsHom_apply, map_sum, weighted]
  refine Finset.sum_congr rfl fun k _ => ?_
  rw [Dual.epsHom_apply, Dual.eps_mul, zero_mul, add_zero]
  rfl

/-- Second derivatives of the weighted outputs are found at the requested
pairs and nowhere else. -/
theorem WellFormed.yields_hessianEntries [PowerRule R] {weights : List T} {ω : Nat → R}
    {pairs : PairSet}
    (exponents : t.Exponents fun n => I.dual.exponent n ∧ I.dual.lowers n)
    (len : xs.length = t.inputCount) (hx : I.meansAll w xs.toArray x)
    (len' : weights.length = t.outputCount) (hω : I.meansAll w weights.toArray ω)
    (inside : ∀ e ∈ pairs, e.1 < t.inputCount ∧ e.2 < t.inputCount) :
    Yields (t.hessianEntries xs weights pairs : m (PairMap T)) w fun E w' =>
      I.meansMap w' E (· ∈ pairs) fun e =>
        weighted t.outputCount t.outputAt ω (t.secondAt x e.1 e.2) := by
  refine yields_checkSize_bind len.symm (yields_checkSize_bind len'.symm ?_)
  refine (yields_foldlM (fun done E w' => I.meansMap w' E (fun e =>
    ∃ rows, (e.2, rows) ∈ done ∧ e.1 ∈ rows) fun e =>
      weighted t.outputCount t.outputAt ω (t.secondAt x e.1 e.2)) ?_ ?_).mono ?_
  · exact Fills.empty.congr fun e => by simp
  · rintro columns ⟨j, rows⟩ rest E w₁ split le₁ hE
    have col : (j, rows) ∈ rowsByColumn pairs := by
      rw [split]
      simp
    obtain ⟨i₀, hi₀⟩ := exists_row col
    have lt := (inside _ hi₀).2
    dsimp only
    rw [← bind_assoc]
    refine (wf.yields_seededSweep I (fun i arg n h => (exponents i arg n h).1) len
      (hx.later I le₁) lt).bind fun values w₂ le₂ ⟨size, hv⟩ => ?_
    have hω' : I.dual.meansAll w₂ (weights.map Dual.constant).toArray fun k => ⟨ω k, 0⟩ := by
      intro k z hz
      rw [List.getElem?_toArray, List.getElem?_map] at hz
      obtain ⟨v, hv, rfl⟩ := Option.map_eq_some_iff.mp hz
      have := (hω.later I (le₁.trans le₂)) k v (by simpa using hv)
      exact ⟨this, I.zero w₂⟩
    refine (wf.yields_reverseSweep I.dual (fun i arg n h => (exponents i arg n h).2) size hv
      (by simpa using len') hω').bind fun adjoints w₃ le₃ ⟨size', hadj⟩ => ?_
    refine (yields_foldlM (fun done E w' => I.meansMap w' E (fun e =>
      e.2 = j ∧ e.1 ∈ done ∨ ∃ rows, (e.2, rows) ∈ columns ∧ e.1 ∈ rows) fun e =>
        weighted t.outputCount t.outputAt ω (t.secondAt x e.1 e.2)) ?_ ?_).mono ?_
    · exact (Fills.mono hE fun e v => I.later (le₂.trans le₃)).congr fun e => by simp
    · rintro done i rest E w₄ split' le₄ hE
      have ilt : i < t.inputCount := by
        refine (inside (i, j) (exists_mem_rowsByColumn.mp ⟨rows, col, ?_⟩)).1
        rw [split']
        simp
      have size_i : i < adjoints.size := by
        rw [size']
        exact Nat.lt_of_lt_of_le ilt wf.inputCount_le
      have at_ := Array.getElem?_eq_getElem size_i
      refine yields_present_bind at_ ?_
      have hi := I.later le₄ (hadj i ilt _ at_).2
      rw [eps_weighted_partialAt] at hi
      refine yields_pure ((Fills.insert hE (e := (i, j)) hi).congr fun ⟨i', j'⟩ => ?_)
      simp only [Prod.mk.injEq, List.mem_append, List.mem_singleton]
      constructor
      · rintro (⟨rfl, rfl⟩ | h | h)
        · exact .inl ⟨rfl, .inr rfl⟩
        · exact .inl ⟨h.1, .inl h.2⟩
        · exact .inr h
      · rintro (⟨rfl, h | h⟩ | h)
        · exact .inr (.inl ⟨rfl, h⟩)
        · exact .inl ⟨h.symm, rfl⟩
        · exact .inr (.inr h)
    · rintro E w₄ - hE
      refine Fills.congr hE fun ⟨i, j'⟩ => ?_
      simp only [List.mem_append, List.mem_singleton, Prod.mk.injEq]
      constructor
      · rintro (⟨rfl, h⟩ | ⟨rows', h, hi⟩)
        · exact ⟨rows, .inr ⟨rfl, rfl⟩, h⟩
        · exact ⟨rows', .inl h, hi⟩
      · rintro ⟨rows', h | ⟨rfl, rfl⟩, hi⟩
        · exact .inr ⟨rows', h, hi⟩
        · exact .inl ⟨rfl, hi⟩
  · rintro E w' - hE
    exact Fills.congr hE fun e => exists_mem_rowsByColumn

end Tape

/-! ## Numbers -/

namespace Tape

variable {F : Type} [Field F] [Scalar F] [ExactScalar F] [PowerRule F] {t : Tape F}
  (wf : t.WellFormed) {xs weights : List F}

include wf

/-- The derivatives of the weighted outputs, on numbers. -/
theorem WellFormed.returns_gradient (len : xs.length = t.inputCount)
    (len' : weights.length = t.outputCount) :
    t.Returns 1 (t.gradient xs weights) fun ds => ds.length = t.inputCount ∧
      ∀ j < t.inputCount, ds[j]? = some (∑ k ∈ Finset.range t.outputCount, weights.getD k 0 *
        t.partialAt (fun l => xs.getD l Scalar.zero) j (t.outputAt k)) := by
  have run := returns
    (fun exponents => wf.yields_gradient (.plain (Except Failure) F F)
      (exponents.mono Interpretation.takes_plain.dual) len (Interpretation.meansAll_plain xs) len'
      (Interpretation.meansAll_plain weights))
    (wf.yields_gradient (.plain Lenient F F)
      (Interpretation.takes_plain.dual_lenient.exponents t) len
      (Interpretation.meansAll_plain xs) len' (Interpretation.meansAll_plain weights))
  refine run.mono ?_
  rintro ds ⟨size, adjoints⟩
  refine ⟨size, fun j hj => ?_⟩
  have hd := List.getElem?_eq_getElem (size.symm ▸ hj : j < ds.length)
  have value : ds[j] = weighted t.outputCount t.outputAt (fun k => weights.getD k Scalar.zero)
      (t.partialAt (fun l => xs.getD l Scalar.zero) j) :=
    adjoints j _ (List.getElem?_toArray ▸ hd)
  rw [hd, value, weighted, ExactScalar.zero_eq]

/-- The first derivatives at the requested positions, on numbers. -/
theorem WellFormed.returns_jacobianEntries {rows : List IndexSet} (len : xs.length = t.inputCount)
    (count : rows.length = t.outputCount) (inside : ∀ row ∈ rows, ∀ j ∈ row, j < t.inputCount) :
    t.Returns 1 (t.jacobianEntries xs rows) fun E =>
      (∀ e, e ∈ E ↔ ∃ row, rows[e.1]? = some row ∧ e.2 ∈ row) ∧
      ∀ e ∈ E, E[e]? =
        some (t.partialAt (fun l => xs.getD l Scalar.zero) e.2 (t.outputAt e.1)) := by
  have run := returns
    (fun exponents => wf.yields_jacobianEntries (.plain (Except Failure) F F)
      (exponents.mono Interpretation.takes_plain.dual) len
      (Interpretation.meansAll_plain xs) count inside)
    (wf.yields_jacobianEntries (.plain Lenient F F)
      (Interpretation.takes_plain.dual_lenient.exponents t) len
      (Interpretation.meansAll_plain xs) count inside)
  refine run.mono ?_
  rintro E ⟨requested, values⟩
  refine ⟨requested, fun e he => ?_⟩
  obtain ⟨v, hv⟩ := Option.isSome_iff_exists.mp (TreeMap.mem_iff_isSome_getElem?.mp he)
  exact hv.trans (congrArg some (values e v hv))

/-- The second derivatives at the requested pairs, on numbers. -/
theorem WellFormed.returns_hessianEntries {pairs : PairSet} (len : xs.length = t.inputCount)
    (len' : weights.length = t.outputCount)
    (inside : ∀ e ∈ pairs, e.1 < t.inputCount ∧ e.2 < t.inputCount) :
    t.Returns 2 (t.hessianEntries xs weights pairs) fun E => (∀ e, e ∈ E ↔ e ∈ pairs) ∧
      ∀ e ∈ pairs, E[e]? = some (∑ k ∈ Finset.range t.outputCount, weights.getD k 0 *
        t.secondAt (fun l => xs.getD l Scalar.zero) e.1 e.2 (t.outputAt k)) := by
  have run := returns
    (fun exponents => wf.yields_hessianEntries (.plain (Except Failure) F F)
      (exponents.mono Interpretation.takes_plain.dual.dual) len
      (Interpretation.meansAll_plain xs) len' (Interpretation.meansAll_plain weights) inside)
    (wf.yields_hessianEntries (.plain Lenient F F)
      (Interpretation.takes_plain.dual_lenient.dual_lenient.exponents t)
      len (Interpretation.meansAll_plain xs) len' (Interpretation.meansAll_plain weights) inside)
  refine run.mono ?_
  rintro E ⟨requested, values⟩
  refine ⟨requested, fun e he => ?_⟩
  obtain ⟨v, hv⟩ := Option.isSome_iff_exists.mp
    (TreeMap.mem_iff_isSome_getElem?.mp ((requested e).mpr he))
  have value : v = weighted t.outputCount t.outputAt (fun k => weights.getD k Scalar.zero)
      (t.secondAt (fun l => xs.getD l Scalar.zero) e.1 e.2) := values e v hv
  rw [hv, value, weighted, ExactScalar.zero_eq]

end Tape

end LoopDiff
