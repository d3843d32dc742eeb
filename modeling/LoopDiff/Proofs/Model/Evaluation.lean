import LoopDiff.Proofs.Model.Acceptance
import LoopDiff.Proofs.Tape.Exact
import LoopDiff.Proofs.Tape.Sweep

/-!
# LoopDiff.Proofs.Model.Evaluation

What a model computes.

The dependents are given by the tapes alone: `Model.Computes x y` says that
`y` has, at every dependent, the value of the equation that computes it.
Every dependent has one equation, so there is such a family, and running an
accepted model gives it (`Model.yields_run`), on numbers and on dual numbers
alike.
-/

namespace LoopDiff

open Std (TreeMap TreeSet)

variable {F R : Type} [Scalar F] [Elementary R] [Embeds F R]

/-! ## Values -/

/-- What an input of a loop reads at an iteration, from the independents `x`
and the temporaries `z`. -/
def Loop.inputAt (l : Loop F) (x z : Nat → R) (it j : Nat) : R :=
  match l.temporaryOf? j with
  | some k => z k
  | none => ((l.independentAt? j it).map x).getD 0

namespace Model

variable (m : Model F)

/-- A temporary of a model. -/
def temporaryAt (x : Nat → R) (k : Nat) : R :=
  m.outer?.elim 0 fun o => o.tape.valueAt x (o.tape.outputAt (o.temporaryOutput k))

/-- The inputs of a loop of a model at an iteration. -/
def inputAt (l : Loop F) (x : Nat → R) (it : Nat) : Nat → R := l.inputAt x (m.temporaryAt x) it

/-- The values of an equation of a loop. -/
def equationAt (l : Loop F) (x : Nat → R) (e it : Nat) : R :=
  l.tape.valueAt (m.inputAt l x it) (l.tape.outputAt e)

/-- The dependents are what their equations make of the independents. -/
structure Computes (x y : Nat → R) : Prop where
  outer {o : Outer F} : m.outer? = some o → ∀ i d, o.dependents[i]? = some d →
    y d = o.tape.valueAt x (o.tape.outputAt i)
  loop {l : Loop F} : l ∈ m.loops → ∀ e row, l.dependents[e]? = some row → ∀ it d,
    row[it]? = some d → y d = m.equationAt l x e it

omit [Scalar F] in
/-- Every dependent has an equation, outside of loops or in one. -/
theorem Valid.exists_equation {m : Model F} (valid : m.Valid) {d : Nat} (hd : d < m.range) :
    (∃ (o : Outer F) (i : Nat), m.outer? = some o ∧ o.dependents[i]? = some d) ∨
      ∃ l ∈ m.loops, ∃ (e : Nat) (row : Array Nat) (it : Nat),
        l.dependents[e]? = some row ∧ row[it]? = some d := by
  have mem : d ∈ computed m.outer? m.loops := valid.covers.mem_iff.mpr (List.mem_range.mpr hd)
  rcases List.mem_append.mp mem with outside | inside
  · cases ho : m.outer? with
    | none => simp [ho] at outside
    | some o =>
        obtain ⟨i, hi⟩ := List.mem_iff_getElem?.mp (by simpa [ho] using outside)
        exact .inl ⟨o, i, rfl, hi⟩
  · obtain ⟨l, hl, mem⟩ := List.mem_flatMap.mp inside
    obtain ⟨row, hrow, mem⟩ := List.mem_flatMap.mp mem
    obtain ⟨e, he⟩ := List.mem_iff_getElem?.mp hrow
    obtain ⟨it, hit⟩ := List.mem_iff_getElem?.mp mem
    exact .inr ⟨l, hl, e, row, it, he, by simpa using hit⟩

/-- A dependent has one value. -/
theorem Computes.eq {m : Model F} (valid : m.Valid) {x y y' : Nat → R} (h : m.Computes x y)
    (h' : m.Computes x y') {d : Nat} (hd : d < m.range) : y d = y' d := by
  rcases valid.exists_equation hd with ⟨o, i, ho, hi⟩ | ⟨l, hl, e, row, it, he, hit⟩
  · rw [h.outer ho i d hi, h'.outer ho i d hi]
  · rw [h.loop hl e row he it d hit, h'.loop hl e row he it d hit]

/-- The dependents with the values of their equations. -/
def values (x : Nat → R) : List (Nat × R) :=
  (m.outer?.elim [] fun o => o.dependents.zipIdx.map fun (d, i) =>
    (d, o.tape.valueAt x (o.tape.outputAt i))) ++
  m.loops.flatMap fun l => l.dependents.zipIdx.flatMap fun (row, e) =>
    row.toList.zipIdx.map fun (d, it) => (d, m.equationAt l x e it)

theorem map_fst_values (x : Nat → R) : (m.values x).map Prod.fst = computed m.outer? m.loops := by
  rw [values, computed, List.map_append]
  congr 1
  · cases m.outer? with
    | none => rfl
    | some o =>
        rw [Option.elim_some, Option.elim_some, List.map_map]
        exact List.zipIdx_map_fst ..
  · rw [List.map_flatMap]
    refine congrArg (List.flatMap · _) (funext fun l => ?_)
    have row (a : Array Nat × Nat) :
        (a.1.toList.zipIdx.map fun (d, it) => (d, m.equationAt l x a.2 it)).map Prod.fst =
          a.1.toList := by
      rw [List.map_map]
      exact List.zipIdx_map_fst ..
    rw [List.map_flatMap]
    simp only [row]
    rw [← List.flatMap_map Prod.fst Array.toList, List.zipIdx_map_fst]

/-- There are dependents with the values of their equations. -/
theorem exists_computes (valid : m.Valid) (x : Nat → R) : ∃ y, m.Computes x y := by
  have nodup : ((m.values x).map Prod.fst).Nodup := by
    rw [map_fst_values]
    exact valid.covers.nodup_iff.mpr List.nodup_range
  have value {d : Nat} {r : R} (h : (d, r) ∈ m.values x) :
      ((m.values x).lookup d).getD 0 = r := by
    rw [lookup_of_mem nodup h, Option.getD_some]
  refine ⟨fun d => ((m.values x).lookup d).getD 0, fun {o} ho i d hd => value ?_,
    fun {l} hl e row hrow it d hd => value ?_⟩
  · refine List.mem_append_left _ ?_
    rw [ho, Option.elim_some]
    exact List.mem_map.mpr ⟨(d, i), List.mem_zipIdx_iff_getElem?.mpr hd, rfl⟩
  · refine List.mem_append_right _ (List.mem_flatMap.mpr ⟨l, hl, List.mem_flatMap.mpr
      ⟨(row, e), List.mem_zipIdx_iff_getElem?.mpr hrow, List.mem_map.mpr ⟨(d, it), ?_, rfl⟩⟩⟩)
    exact List.mem_zipIdx_iff_getElem?.mpr (by simpa using hd)

/-! ## Homomorphisms -/

section

variable {S : Type} [Elementary S] [Embeds F S] (m : Model F) {φ : R → S} (hφ : IsHom F φ)

include hφ

theorem map_temporaryAt (x : Nat → R) (k : Nat) :
    φ (m.temporaryAt x k) = m.temporaryAt (fun j => φ (x j)) k := by
  rw [temporaryAt, temporaryAt]
  cases m.outer? with
  | none => exact hφ.zero
  | some o => exact o.tape.map_valueAt hφ x _

theorem map_inputAt (l : Loop F) (x : Nat → R) (it q : Nat) :
    φ (m.inputAt l x it q) = m.inputAt l (fun j => φ (x j)) it q := by
  rw [inputAt, inputAt, Loop.inputAt, Loop.inputAt]
  cases l.temporaryOf? q with
  | some k => exact m.map_temporaryAt hφ x k
  | none =>
      cases l.independentAt? q it with
      | none => exact hφ.zero
      | some j => rfl

theorem map_equationAt (l : Loop F) (x : Nat → R) (e it : Nat) :
    φ (m.equationAt l x e it) = m.equationAt l (fun j => φ (x j)) e it := by
  rw [equationAt, equationAt, l.tape.map_valueAt hφ]
  exact congrArg (l.tape.valueAt · _) (funext (m.map_inputAt hφ l x it))

/-- Dependents commute with homomorphisms. -/
theorem Computes.map {m : Model F} {x y : Nat → R} (h : m.Computes x y) :
    m.Computes (fun j => φ (x j)) fun d => φ (y d) where
  outer ho i d hd := by rw [h.outer ho i d hd, Tape.map_valueAt _ hφ]
  loop hl e row hrow it d hd := by rw [h.loop hl e row hrow it d hd, m.map_equationAt hφ]

end

end Model

/-! ## Inputs of loops -/

section

variable {m : Type → Type} {W T : Type} [Monad m] [Worlds m W] [Preorder W] [Constants F T]
  [Arith m T] (I : Interpretation m F T R) {w : W} {x z : Nat → R} {l : Loop F} {it : Nat}

/-- The three groups of inputs of a loop. -/
theorem Loop.Valid.meansAll_inputs (valid : l.Valid) {indexed nonIndexed temporaries : List T}
    (hi : List.Forall₂ (fun (row : Array Nat) v => ∃ j, row[it]? = some j ∧ I.means w v (x j))
      l.indexed indexed)
    (hn : List.Forall₂ (fun j v => I.means w v (x j)) l.nonIndexed nonIndexed)
    (ht : List.Forall₂ (fun k v => I.means w v (z k)) l.temporaries temporaries) :
    (indexed ++ nonIndexed ++ temporaries).length = l.tape.inputCount ∧
      I.meansAll w (indexed ++ nonIndexed ++ temporaries).toArray (l.inputAt x z it) := by
  have lenI := hi.length_eq
  have lenN := hn.length_eq
  have lenT := ht.length_eq
  have offset : l.temporaryOffset = l.indexed.length + l.nonIndexed.length := rfl
  refine ⟨?_, fun j v hv => ?_⟩
  · rw [List.length_append, List.length_append, ← lenI, ← lenN, ← lenT, valid.inputs]
  · rw [List.getElem?_toArray] at hv
    by_cases temporary : l.temporaryOffset ≤ j
    · rw [List.getElem?_append_right (by rw [List.length_append]; omega), List.length_append,
        ← lenI, ← lenN] at hv
      obtain ⟨k, hk, means⟩ := exists_left_of_forall₂ ht hv
      have eq : l.temporaryOf? j = some k := by
        rw [Loop.temporaryOf?, if_pos temporary]
        exact hk
      rwa [Loop.inputAt, eq]
    · have eq : l.temporaryOf? j = none := by
        rw [Loop.temporaryOf?, if_neg temporary]
      rw [List.getElem?_append_left (by rw [List.length_append]; omega)] at hv
      rw [Loop.inputAt, eq]
      by_cases isIndexed : j < l.indexed.length
      · rw [List.getElem?_append_left (lenI ▸ isIndexed)] at hv
        obtain ⟨row, hrow, i, hi, means⟩ := exists_left_of_forall₂ hi hv
        simp only [Loop.independentAt?, hrow, hi, Option.map_some, Option.getD_some]
        exact means
      · rw [List.getElem?_append_right (by omega), ← lenI] at hv
        obtain ⟨i, hi, means⟩ := exists_left_of_forall₂ hn hv
        have none : l.indexed[j]? = none := List.getElem?_eq_none (by omega)
        simp only [Loop.independentAt?, none, hi, Option.map_some, Option.getD_some]
        exact means

/-- The outputs of an outer tape after its dependents are the temporaries. -/
theorem Outer.Valid.meansAll_temporaries {model : Model F} {o : Outer F} (valid : o.Valid)
    (ho : model.outer? = some o) {outputs : List T}
    (h : List.Forall₂ (fun i v => I.means w v (o.tape.valueAt x i)) o.tape.outputs outputs) :
    (outputs.drop o.dependents.length).length = Model.temporaryCount model.outer? ∧
      I.meansAll w (outputs.drop o.dependents.length).toArray (model.temporaryAt x) := by
  have count := valid.outputs
  rw [Tape.outputCount, h.length_eq] at count
  refine ⟨?_, fun k v hv => ?_⟩
  · rw [List.length_drop, ho, Model.temporaryCount]
    omega
  · rw [List.getElem?_toArray, List.getElem?_drop] at hv
    obtain ⟨i, hi, means⟩ := exists_left_of_forall₂ h hv
    rw [Model.temporaryAt, ho, Option.elim_some, Outer.temporaryOutput, Tape.outputAt_eq hi]
    exact means

end

/-! ## Running a model -/

section

variable {μ : Type → Type} {T : Type} [Monad μ] [MonadExceptOf Failure μ] [Worlds μ Unit]
  [Constants F T] [Arith μ T] (I : Interpretation μ F T R) {x z y : Nat → R}

theorem Loop.Valid.yields_inputs {l : Loop F} (valid : l.Valid) {it : Nat} (hit : it < l.iterations)
    {xs zs : Array T} (hx : I.meansAll () xs x) (hz : I.meansAll () zs z)
    (indexed : ∀ row ∈ l.indexed, ∀ j ∈ row, j < xs.size)
    (nonIndexed : ∀ j ∈ l.nonIndexed, j < xs.size)
    (temporaries : ∀ k ∈ l.temporaries, k < zs.size) :
    Yields (Model.loopInputs l xs zs it : μ (List T)) () fun inputs _ =>
      inputs.length = l.tape.inputCount ∧ I.meansAll () inputs.toArray (l.inputAt x z it) := by
  rw [Model.loopInputs]
  refine Yields.bind (yields_mapM (P := fun (row : Array Nat) v _ => ∃ j, row[it]? = some j ∧
    I.means () v (x j)) (fun _ _ _ _ _ h => h) fun row hrow _ _ => ?_) fun is _ _ hi => ?_
  · have lt : it < row.size := (valid.size_eq (List.mem_append_right _ hrow)) ▸ hit
    have at_ := Array.getElem?_eq_getElem lt
    refine yields_present_bind at_ ((hx.fetch I ?_).mono fun v _ _ means => ⟨_, at_, means⟩)
    exact indexed row hrow _ (Array.getElem_mem lt)
  refine Yields.bind (yields_mapM (P := fun j v _ => I.means () v (x j)) (fun _ _ _ _ _ h => h)
    fun j hj _ _ => hx.fetch I (nonIndexed j hj)) fun ns _ _ hn => ?_
  refine Yields.bind (yields_mapM (P := fun k v _ => I.means () v (z k)) (fun _ _ _ _ _ h => h)
    fun k hk _ _ => hz.fetch I (temporaries k hk)) fun ts _ _ ht => ?_
  exact yields_pure (valid.meansAll_inputs I hi hn ht)

/-- The dependents in `D` are in place. -/
def InPlace (range : Nat) (y : Nat → R) (D : Nat → Prop) (ys : Array T) : Prop :=
  ys.size = range ∧ ∀ (d : Nat) (v : T), D d → ys[d]? = some v → I.means () v (y d)

variable {range : Nat} {D : Nat → Prop} {ys : Array T}

omit [MonadExceptOf Failure μ] in
theorem InPlace.set (h : InPlace I range y D ys) {d : Nat} {v : T} (hv : I.means () v (y d)) :
    InPlace I range y (fun d' => D d' ∨ d' = d) (ys.setIfInBounds d v) := by
  refine ⟨by rw [Array.size_setIfInBounds, h.1], fun d' v' hd' hv' => ?_⟩
  rw [Array.getElem?_setIfInBounds] at hv'
  split at hv'
  case isTrue eq =>
      split at hv'
      case isTrue =>
          cases hv'
          exact eq ▸ hv
      case isFalse => cases hv'
  case isFalse ne => exact h.2 d' v' (hd'.resolve_right (Ne.symm ne)) hv'

omit [MonadExceptOf Failure μ] in
theorem InPlace.mono {D' : Nat → Prop} (h : InPlace I range y D ys) (imp : ∀ d, D' d → D d) :
    InPlace I range y D' ys :=
  ⟨h.1, fun d v hd => h.2 d v (imp d hd)⟩

/-- One iteration of a loop puts the dependents of its equations in place. -/
theorem Loop.Valid.yields_store {l : Loop F} (valid : l.Valid) {it : Nat} (hit : it < l.iterations)
    {u : Nat → R} {vs : List T}
    (hv : List.Forall₂ (fun o v => I.means () v (l.tape.valueAt u o)) l.tape.outputs vs)
    (eqs : ∀ (e : Nat) (row : Array Nat), l.dependents[e]? = some row → ∀ d, row[it]? = some d →
      y d = l.tape.valueAt u (l.tape.outputAt e))
    (h : InPlace I range y D ys) :
    Yields (Model.storeIteration l it vs ys : μ (Array T)) () fun ys' _ =>
      InPlace I range y (fun d => D d ∨ ∃ row ∈ l.dependents, row[it]? = some d) ys' := by
  have firsts : (l.dependents.zip vs).map Prod.fst = l.dependents :=
    List.map_fst_zip (by rw [valid.outputs, Tape.outputCount, hv.length_eq])
  refine Yields.mono (yields_foldlM (fun done ys' _ => InPlace I range y
    (fun d => D d ∨ ∃ row ∈ done.map Prod.fst, row[it]? = some d) ys') ?_ ?_) fun ys' _ _ h => ?_
  · refine h.mono I fun d hd => hd.resolve_right ?_
    rintro ⟨_, hrow, -⟩
    exact List.not_mem_nil hrow
  · rintro done ⟨row, v⟩ rest ys' _ split _ h
    have here : (l.dependents.zip vs)[done.length]? = some (row, v) := by
      rw [split, List.getElem?_append_right le_rfl, Nat.sub_self]
      rfl
    obtain ⟨hrow, hv'⟩ := List.getElem?_zip_eq_some.mp here
    obtain ⟨o, ho, means⟩ := exists_left_of_forall₂ hv hv'
    have mem := List.mem_of_getElem? hrow
    have lt : it < row.size := (valid.size_eq (List.mem_append_left _ mem)) ▸ hit
    have at_ := Array.getElem?_eq_getElem lt
    refine yields_present_bind at_ (yields_pure ?_)
    have value : I.means () v (y row[it]) := by
      rw [eqs _ _ hrow _ at_, Tape.outputAt_eq ho]
      exact means
    refine (h.set I value).mono I fun d hd => ?_
    rw [List.map_append] at hd
    rcases hd with hd | ⟨row', hrow', hd⟩
    · exact .inl (.inl hd)
    · rcases List.mem_append.mp hrow' with hrow' | hrow'
      · exact .inl (.inr ⟨row', hrow', hd⟩)
      · cases List.mem_singleton.mp hrow'
        exact .inr (Option.some.inj (hd.symm.trans at_))
  · rwa [firsts] at h

namespace Model

variable {m : Model F} (accepted : m.Accepted)

include accepted

/-- The outer part puts its dependents in place. -/
theorem Accepted.yields_outerResults (exponents : m.Exponents I.exponent) {xs : List T}
    (len : xs.length = m.domain) (hx : I.meansAll () xs.toArray x) (computes : m.Computes x y) :
    Yields (m.outerResults xs : μ (Array T × List T)) () fun results _ =>
      InPlace I m.range y (fun d => d ∈ m.outer?.elim [] fun o => o.dependents) results.1 ∧
        results.2.length = temporaryCount m.outer? ∧
        I.meansAll () results.2.toArray (m.temporaryAt x) := by
  have zeros : InPlace I m.range y (fun _ => False) (Array.replicate m.range Constants.zero) :=
    ⟨Array.size_replicate, fun d v no => no.elim⟩
  rw [outerResults]
  cases ho : m.outer? with
  | none =>
      exact yields_pure ⟨zeros.mono I (by simp), rfl, fun i v hv => by simp at hv⟩
  | some o =>
      have valid := accepted.outer ho
      have inputs := accepted.valid.outerInputs ho
      refine Yields.bind ((accepted.outerTape ho).yields_eval I (exponents.1 o ho)
        (len.trans inputs) hx) fun zs _ _ hz => ?_
      obtain ⟨count, temporaries⟩ := valid.meansAll_temporaries I ho hz
      refine yields_pure ⟨⟨?_, fun d v hd hv => ?_⟩, ho ▸ count, temporaries⟩
      · rw [size_foldl_set, Array.size_replicate]
      · have firsts : (o.dependents.zip zs).map Prod.fst = o.dependents := by
          refine List.map_fst_zip ?_
          rw [← hz.length_eq, ← Tape.outputCount, ← valid.outputs]
          exact Nat.le_add_right ..
        rcases getElem?_foldl_set hv with mem | ⟨-, free⟩
        · obtain ⟨i, hi⟩ := List.mem_iff_getElem?.mp mem
          obtain ⟨hd, hv⟩ := List.getElem?_zip_eq_some.mp hi
          obtain ⟨r, hr, means⟩ := exists_left_of_forall₂ hz hv
          rw [computes.outer ho _ _ hd, Tape.outputAt_eq hr]
          exact means
        · rw [firsts] at free
          exact absurd hd free

/-- Running a model gives the dependents. -/
theorem Accepted.yields_run (exponents : m.Exponents I.exponent) {xs : List T}
    (len : xs.length = m.domain) (hx : I.meansAll () xs.toArray x) (computes : m.Computes x y) :
    Yields (m.run xs : μ (List T)) () fun ys _ => ys.length = m.range ∧ I.meansAll () ys.toArray y := by
  have valid := accepted.valid
  refine yields_checkSize_bind len.symm ?_
  refine Yields.bind (accepted.yields_outerResults I exponents len hx computes) ?_
  rintro ⟨ys₀, zs⟩ _ _ ⟨h₀, count, hz⟩
  refine Yields.bind (P := fun ys _ => InPlace I m.range y (fun d => d < m.range) ys) ?_
    fun ys _ _ h => yields_pure ⟨h.1, fun d v hv => ?_⟩
  · refine Yields.mono (yields_foldlM (fun done ys _ => InPlace I m.range y (fun d =>
      d ∈ computed m.outer? done) ys) ?_ ?_) fun ys _ _ h => ?_
    · exact h₀.mono I fun d hd => by simpa [computed] using hd
    · intro done l rest ys _ split _ h
      have hl : l ∈ m.loops := by simp [split]
      have validLoop := accepted.loop hl
      refine Yields.mono (yields_foldlM (fun its ys _ => InPlace I m.range y (fun d =>
        d ∈ computed m.outer? done ∨ ∃ it ∈ its, ∃ row ∈ l.dependents, row[it]? = some d) ys)
        ?_ ?_) fun ys _ _ h => ?_
      · refine h.mono I fun d hd => hd.resolve_right ?_
        rintro ⟨_, hit, -⟩
        exact List.not_mem_nil hit
      · intro its it rest' ys _ split' _ h
        have hit : it < l.iterations := List.mem_range.mp (by simp [split'])
        refine Yields.bind (validLoop.yields_inputs I hit hx hz ?_ ?_ ?_) fun us _ _ inputs => ?_
        · simpa [len] using valid.indexed_lt hl
        · simpa [len] using valid.nonIndexed_lt hl
        · simpa [count] using valid.temporaries_lt hl
        obtain ⟨len', hu⟩ := inputs
        refine Yields.bind ((accepted.loopTape hl).yields_eval I (exponents.2 l hl) len' hu)
          fun vs _ _ hv => ?_
        refine (validLoop.yields_store I hit hv (fun e row hrow d hd =>
          computes.loop hl e row hrow it d hd) h).mono fun ys _ _ h => h.mono I fun d hd => ?_
        rcases hd with hd | ⟨it', hit', hd⟩
        · exact .inl (.inl hd)
        · rcases List.mem_append.mp hit' with hit' | hit'
          · exact .inl (.inr ⟨it', hit', hd⟩)
          · cases List.mem_singleton.mp hit'
            exact .inr hd
      · refine h.mono I fun d hd => ?_
        rw [computed, List.flatMap_append, List.flatMap_singleton, ← List.append_assoc,
          List.mem_append] at hd
        rcases hd with hd | hd
        · exact .inl hd
        · obtain ⟨row, hrow, mem⟩ := List.mem_flatMap.mp hd
          obtain ⟨it, hit⟩ := List.mem_iff_getElem?.mp mem
          rw [Array.getElem?_toList] at hit
          have lt := (Array.getElem?_eq_some_iff.mp hit).1
          rw [validLoop.size_eq (List.mem_append_left _ hrow)] at lt
          exact .inr ⟨it, List.mem_range.mpr lt, row, hrow, hit⟩
    · exact h.mono I fun d lt => valid.covers.mem_iff.mpr (List.mem_range.mpr lt)
  · have at_ : ys[d]? = some v := by simpa using hv
    have lt := (Array.getElem?_eq_some_iff.mp at_).1
    exact h.2 d v (h.1 ▸ lt) at_

end Model

end

/-! ## Runs that succeed -/

omit [Embeds F R] in
/-- A run of a model that succeeds has computed all powers of its tapes. -/
theorem Model.Accepted.exponents_of_run {m : Model F} {k : Nat} [Constants F R]
    [Arith (Except Failure) R] (accepted : m.Accepted) (powers : ExactPowers R k) {us vs : List R}
    (h : (m.run us : Except Failure (List R)) = .ok vs) : m.Exponents (Exponent.Lowers k) := by
  obtain ⟨_, -, h⟩ := bind_eq_ok h
  obtain ⟨⟨ys, zs⟩, outer, h⟩ := bind_eq_ok h
  obtain ⟨_, loops, -⟩ := bind_eq_ok h
  refine ⟨fun o ho => ?_, fun l hl => ?_⟩
  · rw [outerResults, ho] at outer
    obtain ⟨_, eval, -⟩ := bind_eq_ok outer
    exact Tape.exponents_of_eval powers eval
  · have first : 0 ∈ List.range l.iterations := List.mem_range.mpr (accepted.loop hl).pos
    obtain ⟨_, _, iterations⟩ := exists_of_foldlM loops hl
    obtain ⟨_, _, step⟩ := exists_of_foldlM iterations first
    obtain ⟨_, -, step⟩ := bind_eq_ok step
    obtain ⟨_, eval, -⟩ := bind_eq_ok step
    exact Tape.exponents_of_eval powers eval

end LoopDiff
