import LoopDiff.Model.Dependency
import LoopDiff.Proofs.Model.Acceptance
import LoopDiff.Proofs.Tape.Dependency
import LoopDiff.Proofs.Tape.Derivatives

/-!
# LoopDiff.Proofs.Model.Dependency

The sparsity of a model, as relations.

An input of a loop stands for the independents behind it (`Model.Behind`):
the one it reads, or those that its temporary depends on.  `Model.Depends`
and `Model.Meet` say, through the tapes of the parts, which dependents
depend on which independents and which independents meet, and the computed
patterns are these relations (`Accepted.yields_jacobianSparsity`,
`Accepted.yields_hessianSparsity`).
-/

namespace LoopDiff

open Std (TreeSet)

variable {F : Type}

theorem Tape.map_outputAt (t : Tape F) : (List.range t.outputCount).map t.outputAt = t.outputs := by
  refine List.ext_getElem (by simp [Tape.outputCount]) fun k h h' => ?_
  rw [List.getElem_map, List.getElem_range]
  exact Tape.outputAt_eq (List.getElem?_eq_getElem h')

/-- The pairs of the whole Hessian pattern are the inputs that meet. -/
theorem Tape.WellFormed.yields_hessianSparsity {t : Tape F} (wf : t.WellFormed) :
    Yields t.hessianSparsity () fun pairs _ => ∀ j k, (j, k) ∈ pairs ↔ t.Meet t.outputs j k := by
  have pairs := wf.yields_hessianSparsityFor fun k hk => List.mem_range.mp hk
  rwa [Tape.map_outputAt] at pairs

/-- The inputs that some output depends on. -/
theorem Loop.yields_usedInputs {l : Loop F} (wf : l.tape.WellFormed) :
    Yields l.usedInputs () fun used _ =>
      ∀ q, q ∈ used ↔ ∃ out ∈ l.tape.outputs, l.tape.DependsOn out q := by
  rw [Loop.usedInputs]
  refine wf.yields_jacobianSparsity.bind fun rows _ _ hrows => yields_pure fun q => ?_
  rw [Tape.mem_columnsOf]
  constructor
  · rintro ⟨row, mem, hq⟩
    obtain ⟨i, hi⟩ := List.mem_iff_getElem?.mp mem
    obtain ⟨out, hout, iff⟩ := exists_left_of_forall₂ hrows hi
    exact ⟨out, List.mem_of_getElem? hout, (iff q).mp hq⟩
  · rintro ⟨out, mem, dep⟩
    obtain ⟨i, hi⟩ := List.mem_iff_getElem?.mp mem
    obtain ⟨row, hrow, iff⟩ := exists_right_of_forall₂ hrows hi
    exact ⟨row, List.mem_of_getElem? hrow, (iff q).mpr dep⟩

/-- An input that is reached is one that the entry leads from. -/
theorem Tape.dependsOn_iff {t : Tape F} {i j : Nat} :
    t.DependsOn i j ↔ t.entries[j]? = some .input ∧ t.LeadsTo j i := by
  constructor
  · intro h
    induction h with
    | input h => exact ⟨h, .refl⟩
    | step he ha _ ih => exact ⟨ih.1, .step he ha ih.2⟩
  · rintro ⟨hj, path⟩
    induction path with
    | refl => exact .input hj
    | step he ha _ ih => exact .step he ha ih

/-- The members of lists that are found one by one. -/
theorem mem_flatten_of_forall₂ {α β : Type} {Q : α → β → Prop} {xs : List α} {yss : List (List β)}
    (h : List.Forall₂ (fun x ys => ∀ y, y ∈ ys ↔ Q x y) xs yss) (y : β) :
    y ∈ yss.flatten ↔ ∃ x ∈ xs, Q x y := by
  induction h with
  | nil => simp
  | cons h _ ih => simp [ih, h y]

/-! ## Inputs of loops -/

/-- An input of an accepted loop reads a temporary or, at every iteration,
an independent. -/
theorem Loop.Valid.exists_independent {l : Loop F} (valid : l.Valid) {q it : Nat}
    (hq : q < l.tape.inputCount) (hit : it < l.iterations) (ht : l.temporaryOf? q = none) :
    ∃ j, l.independentAt? q it = some j ∧ (j ∈ l.nonIndexed ∨ ∃ row ∈ l.indexed, j ∈ row) := by
  have inputs := valid.inputs
  rw [Loop.independentAt?]
  cases hrow : l.indexed[q]? with
  | some row =>
      have mem := List.mem_of_getElem? hrow
      have size := valid.size_eq (List.mem_append_right _ mem)
      have lt : it < row.size := size ▸ hit
      exact ⟨row[it], Array.getElem?_eq_getElem lt, .inr ⟨row, mem, Array.getElem_mem lt⟩⟩
  | none =>
      have le := List.getElem?_eq_none_iff.mp hrow
      have before : ¬l.temporaryOffset ≤ q := by
        intro past
        rw [Loop.temporaryOf?, if_pos past, List.getElem?_eq_none_iff] at ht
        rw [Loop.temporaryOffset] at past ht
        omega
      rw [Loop.temporaryOffset] at before
      have lt : q - l.indexed.length < l.nonIndexed.length := by omega
      exact ⟨_, List.getElem?_eq_getElem lt, .inl (List.getElem_mem lt)⟩

theorem Loop.mem_of_temporaryOf? {l : Loop F} {q k : Nat} (h : l.temporaryOf? q = some k) :
    k ∈ l.temporaries := by
  rw [Loop.temporaryOf?] at h
  split at h
  · exact List.mem_of_getElem? h
  · cases h

theorem Loop.Valid.temporaryInput_lt {l : Loop F} (valid : l.Valid) {q k : Nat}
    (h : l.temporaryOf? q = some k) : q < l.tape.inputCount := by
  rw [temporaryOf?] at h
  split at h
  case isTrue le =>
      have lt := (List.getElem?_eq_some_iff.mp h).1
      have := valid.inputs
      rw [temporaryOffset] at le lt
      omega
  case isFalse => cases h

/-- The temporary inputs are the inputs that read a temporary. -/
theorem Loop.mem_temporaryInputs {l : Loop F} {q k : Nat} :
    (q, k) ∈ l.temporaryInputs ↔ l.temporaryOf? q = some k := by
  simp only [Loop.temporaryInputs, Loop.temporaryOf?, List.mem_map, List.mem_zipIdx_iff_getElem?,
    Prod.mk.injEq, Prod.exists]
  constructor
  · rintro ⟨k', i, hi, rfl, rfl⟩
    simpa using hi
  · intro h
    split at h
    · case isTrue le => exact ⟨k, q - l.temporaryOffset, h, by omega, rfl⟩
    · cases h

namespace Model

/-! ## Relations -/

variable (m : Model F)

/-- A temporary depends on an independent. -/
def TemporaryDependsOn (k j : Nat) : Prop :=
  ∃ o, m.outer? = some o ∧ o.tape.DependsOn (o.tape.outputAt (o.temporaryOutput k)) j

/-- The independent `j` is behind an input of a loop at an iteration. -/
def Behind (l : Loop F) (it q j : Nat) : Prop :=
  match l.temporaryOf? q with
  | some k => m.TemporaryDependsOn k j
  | none => l.independentAt? q it = some j

/-- The outer part computes the dependent `d` from the independent `j`. -/
def DependsOutside (d j : Nat) : Prop :=
  ∃ o, m.outer? = some o ∧ ∃ i, o.dependents[i]? = some d ∧
    o.tape.DependsOn (o.tape.outputAt i) j

/-- A loop computes the dependent `d` from the independent `j`. -/
def DependsInLoop (l : Loop F) (d j : Nat) : Prop :=
  ∃ e row it, l.dependents[e]? = some row ∧ row[it]? = some d ∧
    ∃ q, l.tape.DependsOn (l.tape.outputAt e) q ∧ m.Behind l it q j

/-- The dependent `d` depends on the independent `j`. -/
def Depends (d j : Nat) : Prop := m.DependsOutside d j ∨ ∃ l ∈ m.loops, m.DependsInLoop l d j

/-- The independents `j` and `k` meet behind the inputs of a loop. -/
def MeetInLoop (l : Loop F) (j k : Nat) : Prop :=
  ∃ it < l.iterations, ∃ p q, l.tape.Meet l.tape.outputs p q ∧
    (m.Behind l it p j ∧ m.Behind l it q k ∨ m.Behind l it p k ∧ m.Behind l it q j)

/-- The independents `j` and `k` meet in a temporary that a loop depends
on. -/
def MeetInTemporary (l : Loop F) (j k : Nat) : Prop :=
  ∃ o, m.outer? = some o ∧ ∃ q t, l.temporaryOf? q = some t ∧
    (∃ out ∈ l.tape.outputs, l.tape.DependsOn out q) ∧
    o.tape.Meet [o.tape.outputAt (o.temporaryOutput t)] j k

/-- The independents `j` and `k` meet outside of loops. -/
def MeetOutside (j k : Nat) : Prop :=
  ∃ o, m.outer? = some o ∧
    o.tape.Meet ((List.range o.dependents.length).map o.tape.outputAt) j k

/-- The independents `j` and `k` meet. -/
def Meet (j k : Nat) : Prop :=
  m.MeetOutside j k ∨ ∃ l ∈ m.loops, m.MeetInLoop l j k ∨ m.MeetInTemporary l j k

variable {m}

/-! ## Temporaries -/

section

variable (accepted : m.Accepted)

include accepted

theorem Accepted.yields_temporaryDependencies :
    Yields m.temporaryDependencies () fun ts _ =>
      ∀ k < temporaryCount m.outer?, ∀ j, j ∈ ts.getD k ∅ ↔ m.TemporaryDependsOn k j := by
  rw [temporaryDependencies]
  cases ho : m.outer? with
  | none => exact yields_pure fun k lt => absurd lt (Nat.not_lt_zero k)
  | some o =>
      by_cases zero : o.temporaryCount = 0
      · simp only [Outer.temporaryDependencies, if_pos zero]
        exact yields_pure fun k lt => absurd lt (by simp [temporaryCount, zero])
      · simp only [Outer.temporaryDependencies, if_neg zero]
        refine (accepted.outerTape ho).yields_jacobianSparsity.bind fun rows _ _ hrows => ?_
        refine yields_pure fun k lt j => ?_
        have count := (accepted.outer ho).outputs
        have inside : o.temporaryOutput k < o.tape.outputs.length := by
          rw [Outer.temporaryOutput, ← Tape.outputCount]
          exact count ▸ Nat.add_lt_add_left lt _
        have hout := List.getElem?_eq_getElem inside
        obtain ⟨row, hrow, mem⟩ := exists_right_of_forall₂ hrows hout
        rw [Outer.temporaryOutput] at hrow
        rw [List.getD_eq_getElem?_getD, List.getElem?_drop, hrow, Option.getD_some, mem,
          TemporaryDependsOn]
        rw [← Tape.outputAt_eq hout]
        constructor
        · exact fun h => ⟨o, ho, h⟩
        · rintro ⟨o', ho', h⟩
          rwa [Option.some.inj (ho.symm.trans ho')]

/-- What a model finds behind an input of one of its loops. -/
theorem Accepted.yields_behind {l : Loop F} (hl : l ∈ m.loops) {ts : List IndexSet}
    (hts : ∀ k < temporaryCount m.outer?, ∀ j, j ∈ ts.getD k ∅ ↔ m.TemporaryDependsOn k j)
    {q it : Nat} (hq : q < l.tape.inputCount) (hit : it < l.iterations) :
    Yields (behind l ts q it) () fun js _ => ∀ j, j ∈ js ↔ m.Behind l it q j := by
  rw [behind]
  cases ht : l.temporaryOf? q with
  | some k =>
      refine yields_pure fun j => ?_
      have lt := accepted.valid.temporaries_lt hl k (Loop.mem_of_temporaryOf? ht)
      rw [TreeSet.mem_toList, hts k lt, Behind, ht]
  | none =>
      obtain ⟨j, hj, -⟩ := (accepted.loop hl).exists_independent hq hit ht
      rw [Loop.independentOf, hj]
      refine yields_pure fun j' => ?_
      rw [Behind, ht, hj]
      simp [eq_comm]

end

/-! ## Rows -/

/-- Rows that hold the pairs of a relation. -/
def HasRows (range : Nat) (P : Nat → Nat → Prop) (rows : Array IndexSet) : Prop :=
  rows.size = range ∧ ∀ d < range, ∀ j, j ∈ rows.getD d ∅ ↔ P d j

section

variable {range : Nat} {P : Nat → Nat → Prop} {rows : Array IndexSet}

theorem HasRows.congr {Q : Nat → Nat → Prop} (h : HasRows range P rows)
    (iff : ∀ d j, P d j ↔ Q d j) : HasRows range Q rows :=
  ⟨h.1, fun d lt j => (h.2 d lt j).trans (iff d j)⟩

theorem hasRows_replicate (range : Nat) :
    HasRows range (fun _ _ => False) (Array.replicate range ∅) :=
  ⟨Array.size_replicate, fun d lt j => by simp [Array.getD_eq_getD_getElem?, lt]⟩

theorem HasRows.extendRow (h : HasRows range P rows) (d : Nat) (js : List Nat) :
    HasRows range (fun d' j => P d' j ∨ d' = d ∧ j ∈ js) (extendRow rows d js) := by
  refine ⟨by rw [Model.extendRow, Array.size_modify, h.1], fun d' lt j => ?_⟩
  have size : d' < rows.size := h.1 ▸ lt
  show _ ↔ P d' j ∨ d' = d ∧ j ∈ js
  rw [← h.2 d' lt j, Model.extendRow, Array.getD_eq_getD_getElem?, Array.getElem?_modify,
    Array.getD_eq_getD_getElem?, Array.getElem?_eq_getElem size]
  by_cases here : d = d'
  · simp [here, TreeSet.mem_insertMany_list]
  · simp [here, Ne.symm here]

/-- A fold adds what each of its steps adds. -/
theorem yields_foldlM_rows {α : Type} {f : Array IndexSet → α → Except Failure (Array IndexSet)}
    {xs : List α} {Q : α → Nat → Nat → Prop} (h : HasRows range P rows)
    (step : ∀ x ∈ xs, ∀ rows' P', HasRows range P' rows' →
      Yields (f rows' x) () fun rows'' _ => HasRows range (fun d j => P' d j ∨ Q x d j) rows'') :
    Yields (xs.foldlM f rows) () fun rows' _ =>
      HasRows range (fun d j => P d j ∨ ∃ x ∈ xs, Q x d j) rows' := by
  refine yields_foldlM (fun done rows' _ => HasRows range (fun d j => P d j ∨ ∃ x ∈ done, Q x d j)
    rows') (h.congr (by simp)) fun done x rest rows' _ split _ h' => ?_
  refine (step x (by simp [split]) rows' _ h').mono fun rows'' _ _ h'' => h''.congr fun d j => ?_
  simp [or_and_right, exists_or, or_assoc]

end

variable (accepted : m.Accepted)

include accepted

/-- The rows that the outer part gives to its dependents. -/
theorem Accepted.hasRows_outer {o : Outer F} (ho : m.outer? = some o) {sparsity : List IndexSet}
    (hs : List.Forall₂ (fun out (row : IndexSet) => ∀ j, j ∈ row ↔ o.tape.DependsOn out j)
      o.tape.outputs sparsity) :
    HasRows m.range (fun d j => ∃ i, o.dependents[i]? = some d ∧
        o.tape.DependsOn (o.tape.outputAt i) j)
      ((o.dependents.zip sparsity).foldl (fun rows (d, row) => extendRow rows d row.toList)
        (Array.replicate m.range ∅)) := by
  have fold : ∀ (xs : List (Nat × IndexSet)) P rows, HasRows m.range P rows →
      HasRows m.range (fun d j => P d j ∨ ∃ x ∈ xs, d = x.1 ∧ j ∈ x.2)
        (xs.foldl (fun rows (d, row) => extendRow rows d row.toList) rows) := by
    intro xs
    induction xs with
    | nil => exact fun P rows h => h.congr (by simp)
    | cons x xs ih =>
        intro P rows h
        refine (ih _ _ (h.extendRow x.1 x.2.toList)).congr fun d j => ?_
        simp [or_assoc, TreeSet.mem_toList]
  refine (fold _ _ _ (hasRows_replicate m.range)).congr fun d j => ?_
  rw [false_or]
  constructor
  · rintro ⟨⟨d', row⟩, mem, rfl, hj⟩
    obtain ⟨i, hi⟩ := List.mem_iff_getElem?.mp mem
    obtain ⟨hd, hrow⟩ := List.getElem?_zip_eq_some.mp hi
    obtain ⟨out, hout, iff⟩ := exists_left_of_forall₂ hs hrow
    exact ⟨i, hd, Tape.outputAt_eq hout ▸ (iff j).mp hj⟩
  · rintro ⟨i, hd, dep⟩
    have lt : i < o.tape.outputs.length := by
      have := (List.getElem?_eq_some_iff.mp hd).1
      have count := (accepted.outer ho).outputs
      rw [Tape.outputCount] at count
      omega
    have hout := List.getElem?_eq_getElem lt
    obtain ⟨row, hrow, iff⟩ := exists_right_of_forall₂ hs hout
    refine ⟨(d, row), List.mem_of_getElem? (List.getElem?_zip_eq_some.mpr ⟨hd, hrow⟩), rfl, ?_⟩
    exact (iff j).mpr (Tape.outputAt_eq hout ▸ dep)

/-- One step of the fold over the loops. -/
theorem Accepted.yields_loopRows {l : Loop F} (hl : l ∈ m.loops) {ts : List IndexSet}
    (hts : ∀ k < temporaryCount m.outer?, ∀ j, j ∈ ts.getD k ∅ ↔ m.TemporaryDependsOn k j)
    {sparsity : List IndexSet} (hs : List.Forall₂ (fun out (row : IndexSet) => ∀ j,
      j ∈ row ↔ l.tape.DependsOn out j) l.tape.outputs sparsity)
    {rows : Array IndexSet} {P : Nat → Nat → Prop} (h : HasRows m.range P rows) :
    Yields ((l.dependents.zip sparsity).foldlM (fun rows (dependents, inputs) =>
      dependents.toList.zipIdx.foldlM (fun rows (d, i) => do
        return extendRow rows d
          (← inputs.toList.mapM fun input => behind l ts input i).flatten) rows) rows :
      Except Failure (Array IndexSet)) () fun rows _ =>
        HasRows m.range (fun d j => P d j ∨ m.DependsInLoop l d j) rows := by
  have valid := accepted.loop hl
  have wf := accepted.loopTape hl
  refine (yields_foldlM_rows (Q := fun x d j => ∃ it, x.1[it]? = some d ∧
    ∃ q ∈ x.2, m.Behind l it q j) h fun x hx rows P h => ?_).mono
    fun rows _ _ h => h.congr fun d j => or_congr_right ?_
  · obtain ⟨dependents, inputs⟩ := x
    obtain ⟨e, he⟩ := List.mem_iff_getElem?.mp hx
    obtain ⟨hrow, hinputs⟩ := List.getElem?_zip_eq_some.mp he
    obtain ⟨out, -, iff⟩ := exists_left_of_forall₂ hs hinputs
    have size := valid.size_eq (List.mem_append_left _ (List.mem_of_getElem? hrow))
    refine (yields_foldlM_rows (Q := fun x d j => d = x.1 ∧ ∃ q ∈ inputs, m.Behind l x.2 q j) h
      fun x hx rows P h => ?_).mono fun rows _ _ h => h.congr fun d j => or_congr_right ?_
    · obtain ⟨d, it⟩ := x
      have hd := List.mem_zipIdx_iff_getElem?.mp hx
      rw [Array.getElem?_toList] at hd
      have hit : it < l.iterations := size ▸ (Array.getElem?_eq_some_iff.mp hd).1
      refine (yields_mapM (P := fun q js _ => ∀ j, j ∈ js ↔ m.Behind l it q j)
        (fun _ _ _ _ _ h => h) fun q hq _ _ => accepted.yields_behind hl hts
          (wf.dependsOn_lt ((iff q).mp (TreeSet.mem_toList.mp hq))) hit).bind
        fun jss _ _ hjss => yields_pure ((h.extendRow d jss.flatten).congr fun d' j => ?_)
      refine or_congr_right (and_congr_right fun _ => ?_)
      simp only [mem_flatten_of_forall₂ hjss, TreeSet.mem_toList]
    · constructor
      · rintro ⟨⟨d', it⟩, mem, rfl, q, hq, hj⟩
        exact ⟨it, by simpa [List.mem_zipIdx_iff_getElem?] using mem, q, hq, hj⟩
      · rintro ⟨it, hd, q, hq, hj⟩
        exact ⟨(d, it), by simpa [List.mem_zipIdx_iff_getElem?] using hd, rfl, q, hq, hj⟩
  · constructor
    · rintro ⟨⟨row, inputs⟩, mem, it, hd, q, hq, hj⟩
      obtain ⟨e, he⟩ := List.mem_iff_getElem?.mp mem
      obtain ⟨hrow, hinputs⟩ := List.getElem?_zip_eq_some.mp he
      obtain ⟨out, hout, iff⟩ := exists_left_of_forall₂ hs hinputs
      exact ⟨e, row, it, hrow, hd, q, Tape.outputAt_eq hout ▸ (iff q).mp hq, hj⟩
    · rintro ⟨e, row, it, hrow, hd, q, dep, hj⟩
      have lt : e < l.tape.outputCount := valid.outputs ▸ (List.getElem?_eq_some_iff.mp hrow).1
      have hout := List.getElem?_eq_getElem lt
      obtain ⟨inputs, hinputs, iff⟩ := exists_right_of_forall₂ hs hout
      exact ⟨(row, inputs), List.mem_of_getElem? (List.getElem?_zip_eq_some.mpr ⟨hrow, hinputs⟩),
        it, hd, q, (iff q).mpr (Tape.outputAt_eq hout ▸ dep), hj⟩

/-- The rows of the Jacobian pattern of a model are its dependencies. -/
theorem Accepted.yields_jacobianSparsity :
    Yields m.jacobianSparsity () fun rows _ =>
      rows.length = m.range ∧ ∀ d < m.range, ∀ j, j ∈ rows.getD d ∅ ↔ m.Depends d j := by
  rw [jacobianSparsity]
  refine accepted.yields_temporaryDependencies.bind fun ts _ _ hts => ?_
  have loops (rows : Array IndexSet) (h : HasRows m.range m.DependsOutside rows) :
      Yields (do
        let rows ← m.loops.foldlM (fun rows l => do
          let sparsity ← l.jacobianSparsity
          (l.dependents.zip sparsity).foldlM (fun rows (dependents, inputs) =>
            dependents.toList.zipIdx.foldlM (fun rows (d, i) => do
              return extendRow rows d
                (← inputs.toList.mapM fun input => behind l ts input i).flatten)
              rows) rows) rows
        return rows.toList : Except Failure (List IndexSet)) () fun rows _ =>
          rows.length = m.range ∧ ∀ d < m.range, ∀ j, j ∈ rows.getD d ∅ ↔ m.Depends d j := by
    refine Yields.bind (yields_foldlM_rows (Q := fun l => m.DependsInLoop l) h
      fun l hl rows P h => ?_) fun rows _ _ h => yields_pure ⟨h.1, fun d lt j => ?_⟩
    · exact (accepted.loopTape hl).yields_jacobianSparsity.bind fun sparsity _ _ hs =>
        accepted.yields_loopRows hl hts hs h
    · rw [List.getD_eq_getElem?_getD, Array.getElem?_toList, ← Array.getD_eq_getD_getElem?]
      exact h.2 d lt j
  cases ho : m.outer? with
  | none =>
      refine loops _ ((hasRows_replicate m.range).congr fun d j => ?_)
      simp [DependsOutside, ho]
  | some o =>
      refine (accepted.outerTape ho).yields_jacobianSparsity.bind fun sparsity _ _ hs => ?_
      refine loops _ ((accepted.hasRows_outer ho hs).congr fun d j => ?_)
      simp [DependsOutside, ho]

/-! ## Pairs -/

/-- The pairs that meet in the tape of a loop stand for the pairs of
independents behind its inputs. -/
theorem Accepted.yields_metPairs {l : Loop F} (hl : l ∈ m.loops) {ts : List IndexSet}
    (hts : ∀ k < temporaryCount m.outer?, ∀ j, j ∈ ts.getD k ∅ ↔ m.TemporaryDependsOn k j) :
    Yields (metPairs ts l) () fun pairs _ => ∀ j k, (j, k) ∈ pairs ↔ m.MeetInLoop l j k := by
  have wf := accepted.loopTape hl
  let Q (pq : Nat × Nat) (it : Nat) (y : Nat × Nat) : Prop :=
    m.Behind l it pq.1 y.1 ∧ m.Behind l it pq.2 y.2 ∨ m.Behind l it pq.1 y.2 ∧ m.Behind l it pq.2 y.1
  rw [metPairs, Loop.hessianSparsity]
  refine wf.yields_hessianSparsity.bind fun sparsity _ _ hs => ?_
  refine (yields_mapM (P := fun pq (rows : List (List (Nat × Nat))) _ => ∀ y, y ∈ rows.flatten ↔
    ∃ it ∈ List.range l.iterations, Q pq it y) (fun _ _ _ _ _ h => h) ?_).bind ?_
  · rintro ⟨p, q⟩ mem _ -
    have lt := wf.meet_lt ((hs p q).mp (TreeSet.mem_toList.mp mem))
    refine (yields_mapM (P := fun it (row : List (Nat × Nat)) _ => ∀ y, y ∈ row ↔ Q (p, q) it y)
      (fun _ _ _ _ _ h => h) fun it hit _ _ => ?_).mono fun rows _ _ h => mem_flatten_of_forall₂ h
    have hit := List.mem_range.mp hit
    refine (accepted.yields_behind hl hts lt.1 hit).bind fun left _ _ hleft => ?_
    refine (accepted.yields_behind hl hts lt.2 hit).bind fun right _ _ hright => ?_
    refine yields_pure fun y => ?_
    simp only [Q, ← hleft, ← hright, List.mem_flatMap, List.mem_cons, List.not_mem_nil, or_false]
    constructor
    · rintro ⟨a, ha, b, hb, rfl | rfl⟩
      · exact .inl ⟨ha, hb⟩
      · exact .inr ⟨ha, hb⟩
    · rintro (⟨ha, hb⟩ | ⟨ha, hb⟩)
      · exact ⟨_, ha, _, hb, .inl rfl⟩
      · exact ⟨_, ha, _, hb, .inr rfl⟩
  · refine fun tables _ _ htables => yields_pure fun j k => ?_
    rw [List.flatten_flatten, mem_flatten_of_forall₂ (List.forall₂_map_right_iff.mpr htables)]
    constructor
    · rintro ⟨⟨p, q⟩, mem, it, hit, h⟩
      exact ⟨it, List.mem_range.mp hit, p, q, (hs p q).mp (TreeSet.mem_toList.mp mem), h⟩
    · rintro ⟨it, hit, p, q, meet, h⟩
      exact ⟨(p, q), TreeSet.mem_toList.mpr ((hs p q).mpr meet), it, List.mem_range.mpr hit, h⟩

theorem Accepted.temporary_lt {l : Loop F} (hl : l ∈ m.loops) {o : Outer F} (ho : m.outer? = some o)
    {q k : Nat} (ht : l.temporaryOf? q = some k) : k < o.temporaryCount := by
  have lt := accepted.valid.temporaries_lt hl k (Loop.mem_of_temporaryOf? ht)
  rwa [ho] at lt

/-- The pairs of the Hessian pattern of the dependents outside of loops. -/
theorem Accepted.yields_outerHessianSparsity {o : Outer F} (ho : m.outer? = some o) :
    Yields o.hessianSparsity () fun pairs _ => ∀ j k, (j, k) ∈ pairs ↔
      o.tape.Meet ((List.range o.dependents.length).map o.tape.outputAt) j k := by
  refine (accepted.outerTape ho).yields_hessianSparsityFor fun k hk => ?_
  have := List.mem_range.mp hk
  have := (accepted.outer ho).outputs
  omega

/-- The pairs of the Hessian pattern of a temporary. -/
theorem Accepted.yields_temporaryHessianSparsity {o : Outer F} (ho : m.outer? = some o) {k : Nat}
    (lt : k < o.temporaryCount) : Yields (o.temporaryHessianSparsity k) () fun pairs _ =>
      ∀ i j, (i, j) ∈ pairs ↔ o.tape.Meet [o.tape.outputAt (o.temporaryOutput k)] i j := by
  refine (accepted.outerTape ho).yields_hessianSparsityFor fun i hi => ?_
  rw [List.mem_singleton.mp hi, ← (accepted.outer ho).outputs]
  exact Nat.add_lt_add_left lt _

/-- The pairs that temporaries bring along. -/
theorem Accepted.yields_metInTemporaries {l : Loop F} (hl : l ∈ m.loops) :
    Yields (m.metInTemporaries l) () fun pairs _ =>
      ∀ j k, (j, k) ∈ pairs ↔ m.MeetInTemporary l j k := by
  rw [metInTemporaries]
  cases ho : m.outer? with
  | none => exact yields_pure fun j k => by simp [MeetInTemporary, ho]
  | some o =>
      have wf := accepted.outerTape ho
      refine (Loop.yields_usedInputs (accepted.loopTape hl)).bind fun used _ _ hused => ?_
      refine (yields_mapM (P := fun (e : Nat × Nat) (pairs : PairSet) _ => ∀ y, y ∈ pairs.toList ↔
        o.tape.Meet [o.tape.outputAt (o.temporaryOutput e.2)] y.1 y.2)
        (fun _ _ _ _ _ h => h) ?_).bind fun sets _ _ hsets => yields_pure fun j k => ?_
      · rintro ⟨q, t⟩ mem _ -
        have ht := Loop.mem_temporaryInputs.mp (List.mem_filter.mp mem).1
        refine (accepted.yields_temporaryHessianSparsity ho
          (accepted.temporary_lt hl ho ht)).mono fun pairs _ _ h y => ?_
        exact TreeSet.mem_toList.trans (h y.1 y.2)
      · rw [List.flatMap_def,
          mem_flatten_of_forall₂ (List.forall₂_map_right_iff.mpr hsets)]
        constructor
        · rintro ⟨⟨q, t⟩, mem, meet⟩
          obtain ⟨mem, hq⟩ := List.mem_filter.mp mem
          exact ⟨o, ho, q, t, Loop.mem_temporaryInputs.mp mem, (hused q).mp (by simpa using hq), meet⟩
        · rintro ⟨o', ho', q, t, ht, hq, meet⟩
          cases ho.symm.trans ho'
          exact ⟨(q, t), List.mem_filter.mpr ⟨Loop.mem_temporaryInputs.mpr ht,
            by simpa using (hused q).mpr hq⟩, meet⟩

/-- The pairs of the Hessian pattern of a model are the independents that
meet. -/
theorem Accepted.yields_hessianSparsity :
    Yields m.hessianSparsity () fun pairs _ => ∀ j k, (j, k) ∈ pairs ↔ m.Meet j k := by
  rw [hessianSparsity]
  refine accepted.yields_temporaryDependencies.bind fun ts _ _ hts => ?_
  have loops (outer : PairSet) (h : ∀ j k, (j, k) ∈ outer ↔ m.MeetOutside j k) :
      Yields (m.loops.foldlM (fun pairs l => do
        let pairs := pairs.insertMany (← metPairs ts l)
        return pairs.insertMany (← m.metInTemporaries l)) outer : Except Failure PairSet) ()
          fun pairs _ => ∀ j k, (j, k) ∈ pairs ↔ m.Meet j k := by
    refine yields_foldlM (fun done (pairs : PairSet) _ => ∀ j k, (j, k) ∈ pairs ↔
      m.MeetOutside j k ∨ ∃ l ∈ done, m.MeetInLoop l j k ∨ m.MeetInTemporary l j k)
      (by simpa using h) fun done l rest pairs _ split _ h => ?_
    have hl : l ∈ m.loops := by simp [split]
    refine (accepted.yields_metPairs hl hts).bind fun met _ _ hmet => ?_
    refine (accepted.yields_metInTemporaries hl).bind fun temporary _ _ htemporary => ?_
    refine yields_pure fun j k => ?_
    simp only [TreeSet.mem_insertMany_list, List.contains_iff_mem, h, hmet, htemporary,
      List.mem_append, List.mem_singleton, or_and_right, exists_or, exists_eq_left, or_assoc]
  cases ho : m.outer? with
  | none => exact loops ∅ fun j k => by simp [MeetOutside, ho]
  | some o =>
      refine (accepted.yields_outerHessianSparsity ho).bind
        fun outer _ _ h => loops outer fun j k => ?_
      rw [h j k]
      simp [MeetOutside, ho]

omit accepted in
/-- Independents meet one another. -/
theorem Meet.symm {j k : Nat} (h : m.Meet j k) : m.Meet k j := by
  rcases h with ⟨o, ho, meet⟩ |
    ⟨l, hl, ⟨it, hit, p, q, meet, behind⟩ | ⟨o, ho, q, t, ht, used, meet⟩⟩
  · exact .inl ⟨o, ho, meet.symm⟩
  · exact .inr ⟨l, hl, .inl ⟨it, hit, p, q, meet, behind.symm⟩⟩
  · exact .inr ⟨l, hl, .inr ⟨o, ho, q, t, ht, used, meet.symm⟩⟩

/-! ## Bounds -/

theorem Accepted.temporaryDependsOn_lt {k j : Nat} (h : m.TemporaryDependsOn k j) :
    j < m.domain := by
  obtain ⟨o, ho, reaches⟩ := h
  rw [accepted.valid.outerInputs ho]
  exact (accepted.outerTape ho).dependsOn_lt reaches

theorem Accepted.behind_lt {l : Loop F} (hl : l ∈ m.loops) {it q j : Nat}
    (hq : q < l.tape.inputCount) (hit : it < l.iterations) (h : m.Behind l it q j) :
    j < m.domain := by
  rw [Behind] at h
  cases ht : l.temporaryOf? q with
  | some k =>
      rw [ht] at h
      exact accepted.temporaryDependsOn_lt h
  | none =>
      rw [ht] at h
      obtain ⟨j', hj', read⟩ := (accepted.loop hl).exists_independent hq hit ht
      cases hj'.symm.trans h
      rcases read with mem | ⟨row, hrow, mem⟩
      · exact accepted.valid.nonIndexed_lt hl j mem
      · exact accepted.valid.indexed_lt hl row hrow j mem

theorem Accepted.depends_lt {d j : Nat} (h : m.Depends d j) : j < m.domain := by
  rcases h with ⟨o, ho, i, -, reaches⟩ | ⟨l, hl, e, row, it, he, hit, q, reaches, behind⟩
  · rw [accepted.valid.outerInputs ho]
    exact (accepted.outerTape ho).dependsOn_lt reaches
  · have size := (accepted.loop hl).size_eq (List.mem_append_left _ (List.mem_of_getElem? he))
    have lt : it < row.size := (Array.getElem?_eq_some_iff.mp hit).1
    exact accepted.behind_lt hl ((accepted.loopTape hl).dependsOn_lt reaches) (size ▸ lt) behind

theorem Accepted.meet_lt {j k : Nat} (h : m.Meet j k) : j < m.domain ∧ k < m.domain := by
  rcases h with ⟨o, ho, meet⟩ |
    ⟨l, hl, ⟨it, hit, p, q, meet, behind⟩ | ⟨o, ho, q, t, -, -, meet⟩⟩
  · rw [accepted.valid.outerInputs ho]
    exact (accepted.outerTape ho).meet_lt meet
  · obtain ⟨hp, hq⟩ := (accepted.loopTape hl).meet_lt meet
    rcases behind with ⟨left, right⟩ | ⟨right, left⟩
    · exact ⟨accepted.behind_lt hl hp hit left, accepted.behind_lt hl hq hit right⟩
    · exact ⟨accepted.behind_lt hl hq hit left, accepted.behind_lt hl hp hit right⟩
  · rw [accepted.valid.outerInputs ho]
    exact (accepted.outerTape ho).meet_lt meet

end Model

end LoopDiff
