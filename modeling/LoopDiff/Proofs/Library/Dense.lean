import LoopDiff.Proofs.Library.Loaded

/-!
# LoopDiff.Proofs.Library.Dense

Dense matrices from compressed ones.

A dense matrix starts out with zeros everywhere, and every value of the
compressed matrix is put in its place.  All places exist, so this does not
fail (`LoadedModel.jacobian_eq`, `LoadedModel.hessian_eq`).
-/

namespace LoopDiff

variable {σ F : Type}

/-- A fold of steps without effect has none. -/
theorem exists_foldlM_eq_pure {m : Type → Type} [Monad m] [LawfulMonad m] {α β : Type}
    {f : β → α → m β} {xs : List α} {b : β} (I : List α → β → Prop) (init : I [] b)
    (step : ∀ done x rest b, xs = done ++ x :: rest → I done b →
      ∃ b', f b x = pure b' ∧ I (done ++ [x]) b') :
    ∃ b', xs.foldlM f b = pure b' ∧ I xs b' := by
  suffices main : ∀ rest done b, xs = done ++ rest → I done b →
      ∃ b', rest.foldlM f b = pure b' ∧ I xs b' from main xs [] b rfl init
  intro rest
  induction rest with
  | nil =>
      intro done b split h
      exact ⟨b, rfl, by simpa [split] using h⟩
  | cons x rest ih =>
      intro done b split h
      obtain ⟨b', hb, h'⟩ := step done x rest b split h
      rw [List.foldlM_cons, hb, pure_bind]
      exact ih (done ++ [x]) b' (by simp [split]) h'

namespace LoadedModel

namespace Dense

variable {rows cols : Nat} {f : Nat → Nat → F}

/-- The dense matrix with the elements `f`. -/
def ofFn (rows cols : Nat) (f : Nat → Nat → F) : Dense F :=
  ((List.range rows).map fun r => ((List.range cols).map (f r)).toArray).toArray

theorem toLists_ofFn : (ofFn rows cols f).toLists =
    (List.range rows).map fun r => (List.range cols).map (f r) := by
  simp [toLists, ofFn, Function.comp_def]

theorem getElem?_ofFn {r : Nat} (lt : r < rows) :
    (ofFn rows cols f)[r]? = some ((List.range cols).map (f r)).toArray := by
  simp [ofFn, lt]

theorem zero_eq [Scalar F] (room : 24 * rows < 0x8000000000000000) :
    Dense.zero rows cols = .ok (ofFn rows cols fun _ _ => (Scalar.zero : F)) := by
  have eq : ofFn rows cols (fun _ _ => (Scalar.zero : F)) =
      Array.replicate rows (Array.replicate cols Scalar.zero) := by
    simp [ofFn]
  rw [Dense.zero, checkExtent, if_pos room, eq]
  rfl

theorem set_ofFn {row col : Nat} (hrow : row < rows) (hcol : col < cols) (v : F) :
    (ofFn rows cols f).set row col v =
      .ok (ofFn rows cols fun r c => if r = row ∧ c = col then v else f r c) := by
  rw [set, getElem?_ofFn hrow]
  simp only [List.size_toArray, List.length_map, List.length_range, if_pos hcol]
  refine congrArg Except.ok (Array.ext_getElem? fun r => ?_)
  rw [Array.getElem?_modify]
  by_cases lt : r < rows
  · rw [getElem?_ofFn lt, getElem?_ofFn lt]
    split
    case isTrue eq =>
        subst eq
        refine congrArg some (Array.ext_getElem? fun c => ?_)
        rw [Array.getElem?_setIfInBounds]
        by_cases eq : c = col
        · simp [eq, hcol]
        · by_cases lt : c < cols <;> simp [eq, Ne.symm eq, lt]
    case isFalse ne => simp [Ne.symm ne]
  · simp [ofFn, lt]

end Dense

/-! ## Derivatives -/

/-- A computation that succeeds has no effect. -/
theorem liftM_eq_pure {α : Type} {c : Except Failure α} {x : α} (h : c = .ok x) :
    (liftM c : Effect σ α) = pure x := by
  rw [h]
  rfl

variable [Scalar F] {m : LoadedModel σ F} {layout : Sparsity}
  {es : List (Nat × Nat)} {x w values : List F}

theorem zeroBuffer_eq {n : Nat} (room : 8 * n < 0x8000000000000000) :
    zeroBuffer n = .ok (List.replicate n (Scalar.zero : F)) := by
  rw [zeroBuffer, checkExtent, if_pos room]
  rfl

/-- The dense Jacobian has the values at their places and zeros elsewhere. -/
theorem jacobian_eq (hs : m.jacobianSparsity? = some layout) (entries : layout.entries = es)
    (size : layout.size = es.length) (selection : IsSelection m.info.range m.info.domain es)
    (room : 8 * es.length < 0x8000000000000000)
    (range : 24 * m.info.range < 0x8000000000000000)
    (call : m.sparseJacobian x (List.replicate es.length Scalar.zero) = pure values)
    (length : values.length = es.length) {D : Nat → Nat → F}
    (here : ∀ e v, (e, v) ∈ es.zip values → v = D e.1 e.2)
    (elsewhere : ∀ r < m.info.range, ∀ c < m.info.domain, (r, c) ∉ es → D r c = Scalar.zero) :
    m.jacobian x = pure ((List.range m.info.range).map fun r =>
      (List.range m.info.domain).map (D r)) := by
  obtain ⟨dense, filled, eq⟩ : ∃ dense, (es.zip values).foldlM
      (fun dense e => (liftM (dense.set e.1.1 e.1.2 e.2) : Effect σ (Dense F)))
        (Dense.ofFn m.info.range m.info.domain fun _ _ => Scalar.zero) = pure dense ∧
      dense = Dense.ofFn m.info.range m.info.domain fun r c =>
        if (r, c) ∈ (es.zip values).map Prod.fst then D r c else Scalar.zero := by
    refine exists_foldlM_eq_pure (fun done dense => dense = Dense.ofFn m.info.range m.info.domain
      fun r c => if (r, c) ∈ done.map Prod.fst then D r c else Scalar.zero) (by simp) ?_
    rintro done ⟨⟨row, col⟩, v⟩ rest dense split rfl
    have mem : ((row, col), v) ∈ es.zip values := by simp [split]
    have inside := (List.of_mem_zip mem).1
    refine ⟨_, liftM_eq_pure (Dense.set_ofFn (selection.row_lt inside) (selection.col_lt inside) v),
      congrArg _ (funext₂ fun r c => ?_)⟩
    have listed : (r, c) ∈ (done ++ [((row, col), v)]).map Prod.fst ↔
        (r = row ∧ c = col) ∨ (r, c) ∈ done.map Prod.fst := by
      simp [or_comm]
    rw [if_congr listed rfl rfl, here _ _ mem]
    by_cases last : r = row ∧ c = col
    · rw [if_pos last, if_pos (.inl last), last.1, last.2]
    · rw [if_neg last, if_congr (or_iff_right last) rfl rfl]
  have found : m.jacobianSparsity = .ok layout := by
    rw [jacobianSparsity, hs]
    rfl
  rw [jacobian, liftM_eq_pure found, pure_bind, size, entries,
    liftM_eq_pure (zeroBuffer_eq room), pure_bind, call, pure_bind,
    liftM_eq_pure (Dense.zero_eq range), pure_bind]
  refine (congrArg (· >>= fun dense => pure dense.toLists) filled).trans ((pure_bind ..).trans ?_)
  rw [eq, Dense.toLists_ofFn, List.map_fst_zip length.ge]
  refine congrArg pure (List.map_congr_left fun r hr => List.map_congr_left fun c hc => ?_)
  split
  case isTrue => rfl
  case isFalse free =>
      exact (elsewhere r (List.mem_range.mp hr) c (List.mem_range.mp hc) free).symm

/-- The places of a symmetric matrix that are filled when the elements `done`
of `es` are in it: their own and, where `es` does not have them, the mirrored
ones. -/
def Filled (es done : List (Nat × Nat)) (r c : Nat) : Prop :=
  (r, c) ∈ done ∨ (c, r) ∈ done ∧ (r, c) ∉ es

instance (es done : List (Nat × Nat)) (r c : Nat) : Decidable (Filled es done r c) :=
  inferInstanceAs (Decidable (_ ∨ _))

theorem filled_concat (es done : List (Nat × Nat)) (row col r c : Nat) :
    Filled es (done ++ [(row, col)]) r c ↔
      (r = col ∧ c = row) ∧ (r, c) ∉ es ∨ (r = row ∧ c = col) ∨ Filled es done r c := by
  simp only [Filled, List.mem_append, List.mem_singleton, Prod.mk.injEq]
  tauto

/-- The dense Hessian has the values at their places and, where the layout has
only one of two mirrored places, also at the other, and zeros elsewhere. -/
theorem hessian_eq (hs : m.hessianSparsity? = some layout) (entries : layout.entries = es)
    (size : layout.size = es.length) (selection : IsSelection m.info.domain m.info.domain es)
    (room : 8 * es.length < 0x8000000000000000)
    (domain : 24 * m.info.domain < 0x8000000000000000)
    (call : m.sparseHessian x w (List.replicate es.length Scalar.zero) = pure values)
    (length : values.length = es.length) {D : Nat → Nat → F}
    (here : ∀ e v, (e, v) ∈ es.zip values → v = D e.1 e.2)
    (mirrored : ∀ r c, (r, c) ∈ es → (c, r) ∉ es → D c r = D r c)
    (elsewhere : ∀ r < m.info.domain, ∀ c < m.info.domain, (r, c) ∉ es → (c, r) ∉ es →
      D r c = Scalar.zero) :
    m.hessian x w = pure ((List.range m.info.domain).map fun r =>
      (List.range m.info.domain).map (D r)) := by
  let listed : PairSet := Std.TreeSet.ofList es
  obtain ⟨dense, filled, eq⟩ : ∃ dense, (es.zip values).foldlM
      (fun dense e => do
        let dense ← (liftM (dense.set e.1.1 e.1.2 e.2) : Effect σ (Dense F))
        if listed.contains (e.1.2, e.1.1) then return dense else liftM (dense.set e.1.2 e.1.1 e.2))
        (Dense.ofFn m.info.domain m.info.domain fun _ _ => Scalar.zero) = pure dense ∧
      dense = Dense.ofFn m.info.domain m.info.domain fun r c =>
        if Filled es ((es.zip values).map Prod.fst) r c then D r c else Scalar.zero := by
    refine exists_foldlM_eq_pure (fun done dense => dense =
      Dense.ofFn m.info.domain m.info.domain fun r c =>
        if Filled es (done.map Prod.fst) r c then D r c else Scalar.zero) (by simp [Filled]) ?_
    rintro done ⟨⟨row, col⟩, v⟩ rest dense split rfl
    have mem : ((row, col), v) ∈ es.zip values := by simp [split]
    have inside := (List.of_mem_zip mem).1
    have hrow := selection.row_lt inside
    have hcol := selection.col_lt inside
    have value : v = D row col := here _ _ mem
    dsimp only
    rw [Dense.set_ofFn hrow hcol]
    simp only [List.map_append, List.map_cons, List.map_nil, filled_concat]
    by_cases both : (col, row) ∈ es
    · have skip : listed.contains (col, row) = true := by simpa [listed] using both
      refine ⟨_, if_pos skip, congrArg _ (funext₂ fun r c => ?_)⟩
      have own : ¬((r = col ∧ c = row) ∧ (r, c) ∉ es) := by
        rintro ⟨⟨rfl, rfl⟩, free⟩
        exact free both
      rw [if_congr (or_iff_right own) rfl rfl]
      by_cases last : r = row ∧ c = col
      · rw [if_pos last, if_pos (.inl last), value, last.1, last.2]
      · rw [if_neg last, if_congr (or_iff_right last) rfl rfl]
    · have mirror : ¬listed.contains (col, row) = true := by simpa [listed] using both
      refine ⟨_, (if_neg mirror).trans (liftM_eq_pure (Dense.set_ofFn hcol hrow v)),
        congrArg _ (funext₂ fun r c => ?_)⟩
      by_cases opposite : r = col ∧ c = row
      · obtain ⟨rfl, rfl⟩ := opposite
        rw [if_pos ⟨rfl, rfl⟩, if_pos (.inl ⟨⟨rfl, rfl⟩, both⟩), value, mirrored _ _ inside both]
      · rw [if_neg opposite, if_congr (or_iff_right fun h => opposite h.1) rfl rfl]
        by_cases last : r = row ∧ c = col
        · rw [if_pos last, if_pos (.inl last), value, last.1, last.2]
        · rw [if_neg last, if_congr (or_iff_right last) rfl rfl]
  have found : m.hessianSparsity = .ok layout := by
    rw [hessianSparsity, hs]
    rfl
  rw [hessian, liftM_eq_pure found, pure_bind, size, entries,
    liftM_eq_pure (zeroBuffer_eq room), pure_bind, call, pure_bind,
    liftM_eq_pure (Dense.zero_eq domain), pure_bind]
  refine (congrArg (· >>= fun dense => pure dense.toLists) filled).trans ((pure_bind ..).trans ?_)
  rw [eq, Dense.toLists_ofFn, List.map_fst_zip length.ge]
  refine congrArg pure (List.map_congr_left fun r hr => List.map_congr_left fun c hc => ?_)
  split
  case isTrue => rfl
  case isFalse free =>
      have apart : (r, c) ∉ es := fun h => free (.inl h)
      exact (elsewhere r (List.mem_range.mp hr) c (List.mem_range.mp hc) apart fun h =>
        free (.inr ⟨h, apart⟩)).symm

end LoadedModel

end LoopDiff
