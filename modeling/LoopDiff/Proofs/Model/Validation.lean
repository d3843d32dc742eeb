import LoopDiff.Proofs.Model.Acceptance
import LoopDiff.Proofs.Pattern

/-!
# LoopDiff.Proofs.Model.Validation

What the constructors of models accept.

Outer parts and models come out of their constructors exactly if their parts
are consistent: nothing that later steps rely on is missing, doubled or out
of range, and nothing else is asked for.  Of a loop it is also asked that the
patterns of its rows can be found in signed words (`Loop.exists_make_iff`).
Only rows with enormous indices fail to have one
(`Loop.exists_make_iff_of_small`).
-/

namespace LoopDiff

variable {F : Type}

/-! ## Loops -/

namespace Loop

variable {id iterations : Nat} {tape : Tape F} {dependents indexed : List (Array Nat)}
  {nonIndexed temporaries : List Nat}

/-- What a loop is made of fits together. -/
structure Consistent (tape : Tape F) (iterations : Nat) (dependents indexed : List (Array Nat))
    (nonIndexed temporaries : List Nat) : Prop where
  pos : 0 < iterations
  inputs : indexed.length + nonIndexed.length + temporaries.length = tape.inputCount
  outputs : dependents.length = tape.outputCount
  size_eq {row : Array Nat} : row ∈ dependents ++ indexed → row.size = iterations
  nodup : (dependents.flatMap Array.toList).Nodup

theorem Consistent.exists_make
    (consistent : Consistent tape iterations dependents indexed nonIndexed temporaries)
    (patterns : ∀ row ∈ dependents ++ indexed, ∃ p, Pattern.detectDense? row.toList = some p) :
    ∃ l, make id tape iterations dependents indexed nonIndexed temporaries = .ok l := by
  have found (rows : List (Array Nat)) (inside : ∀ row ∈ rows, row ∈ dependents ++ indexed) :
      Yields (rows.mapM fun row => present (Pattern.detectDense? row.toList) :
        Except Failure (List Pattern)) () fun _ _ => True := by
    refine (yields_mapM (P := fun _ _ _ => True) (fun _ _ _ _ _ h => h)
      fun row mem _ _ => ?_).mono fun _ _ _ _ => trivial
    obtain ⟨p, hp⟩ := patterns row (inside row mem)
    exact yields_present hp trivial
  suffices made : Yields (make id tape iterations dependents indexed nonIndexed temporaries) ()
      fun _ _ => True from (exists_ok_of_yields made).imp fun _ h => h.1
  rw [make, if_neg (Nat.ne_of_gt consistent.pos)]
  refine yields_checkSize_bind consistent.inputs (yields_checkSize_bind consistent.outputs ?_)
  refine (yields_forM fun row mem _ _ => ?_).bind fun _ _ _ _ => ?_
  · exact yields_ok (if_pos (consistent.size_eq mem).symm) trivial
  rw [firstRepeat?_eq_none_iff.mpr ⟨consistent.nodup, fun _ _ => Std.TreeSet.not_mem_emptyc⟩]
  refine (found dependents fun _ => List.mem_append_left _).bind fun _ _ _ _ => ?_
  refine (found indexed fun _ => List.mem_append_right _).bind fun _ _ _ _ => ?_
  exact yields_pure trivial

/-- A loop is accepted exactly if it is consistent and its rows have
patterns. -/
theorem exists_make_iff :
    (∃ l, make id tape iterations dependents indexed nonIndexed temporaries = .ok l) ↔
      Consistent tape iterations dependents indexed nonIndexed temporaries ∧
        ∀ row ∈ dependents ++ indexed, ∃ p, Pattern.detectDense? row.toList = some p := by
  refine ⟨?_, fun ⟨consistent, patterns⟩ => consistent.exists_make patterns⟩
  rintro ⟨l, made⟩
  obtain ⟨valid, ps, qs, rfl⟩ := exists_of_make made
  refine ⟨⟨valid.pos, valid.inputs, valid.outputs, valid.size_eq, valid.nodup⟩, fun row mem => ?_⟩
  have found {rows : List (Array Nat)} {ps : List Pattern} (h : List.Forall₂ (fun row p =>
      Pattern.detectDense? row.toList = some p) rows ps) (mem : row ∈ rows) :
      ∃ p, Pattern.detectDense? row.toList = some p := by
    obtain ⟨i, hi⟩ := List.mem_iff_getElem?.mp mem
    obtain ⟨p, -, hp⟩ := exists_right_of_forall₂ h hi
    exact ⟨p, hp⟩
  exact (List.mem_append.mp mem).elim (found valid.dependentPatterns) (found valid.indexedPatterns)

/-- Within signed words, a loop is accepted exactly if it is consistent. -/
theorem exists_make_iff_of_small {k : Nat} (small : k * iterations < 0x8000000000000000)
    (within : ∀ row ∈ dependents ++ indexed, ∀ v ∈ row, v < k) :
    (∃ l, make id tape iterations dependents indexed nonIndexed temporaries = .ok l) ↔
      Consistent tape iterations dependents indexed nonIndexed temporaries := by
  refine exists_make_iff.trans (and_iff_left_of_imp fun consistent row mem => ?_)
  refine Pattern.detect?_isSome small fun i v hv => ?_
  rw [Pattern.getElem?_denseTable, Array.getElem?_toList] at hv
  have lt := (Array.getElem?_eq_some_iff.mp hv).1
  exact ⟨lt.trans_eq (consistent.size_eq mem), within row mem v (Array.mem_of_getElem? hv)⟩

/-- A row without a pattern: the rule through its first two indices leaves
the signed words at the third. -/
example : Pattern.detectDense? [0, 0x4000000000000000, 0] = none := rfl

end Loop

/-! ## Outer parts -/

/-- An outer part is accepted exactly if its tape has an output for each of
its dependents, which are distinct, and temporaries. -/
theorem Outer.exists_make_iff {tape : Tape F} {dependents : List Nat} {temporaryCount : Nat} :
    (∃ o, Outer.make tape dependents temporaryCount = .ok o) ↔
      dependents.length + temporaryCount = tape.outputCount ∧ dependents.Nodup := by
  constructor
  · rintro ⟨o, made⟩
    have same : o = ⟨tape, dependents, temporaryCount⟩ := by
      rw [make] at made
      obtain ⟨_, -, made⟩ := bind_eq_ok made
      split at made <;> cases made
      rfl
    subst same
    have valid : Valid ⟨tape, dependents, temporaryCount⟩ := valid_of_make made
    exact ⟨valid.outputs, valid.nodup⟩
  · rintro ⟨outputs, nodup⟩
    have checked : (checkSize .outerTapeOutput (dependents.length + temporaryCount)
        tape.outputCount : Except Failure Unit) = .ok () := if_pos outputs
    refine ⟨⟨tape, dependents, temporaryCount⟩, ?_⟩
    rw [make, bind_of_ok checked,
      firstRepeat?_eq_none_iff.mpr ⟨nodup, fun _ _ => Std.TreeSet.not_mem_emptyc⟩]
    rfl

/-! ## Models -/

namespace Model

variable {domain range count : Nat} {covered : IndexSet} {name : String}
  {outer? : Option (Outer F)} {loops : List (Loop F)}

/-- New dependents are added to those computed so far. -/
theorem yields_cover {ds : List Nat} (nodup : ds.Nodup)
    (inside : ∀ d ∈ ds, d < range ∧ d ∉ covered) :
    Yields (cover range covered ds) () fun covered' _ =>
      ∀ d, d ∈ covered' ↔ d ∈ covered ∨ d ∈ ds := by
  refine yields_foldlM (fun done (covered' : IndexSet) _ =>
    ∀ d, d ∈ covered' ↔ d ∈ covered ∨ d ∈ done) (fun d => by simp) ?_
  rintro done d rest covered' _ split - mem
  have listed : d ∈ ds := by simp [split]
  have fresh : d ∉ covered' := by
    rw [split, List.nodup_append] at nodup
    exact fun old => ((mem d).mp old).elim (inside d listed).2
      fun earlier => nodup.2.2 d earlier d (List.mem_cons_self ..) rfl
  rw [if_neg (Nat.not_le_of_lt (inside d listed).1),
    if_neg fun old => fresh (Std.TreeSet.contains_iff_mem.mp old)]
  refine yields_pure fun d' => ?_
  rw [Std.TreeSet.mem_insert, Std.compare_eq_iff_eq, mem, List.mem_append, List.mem_singleton,
    eq_comm, or_left_comm]
  exact or_congr_right or_comm

theorem yields_coverOuter (inputs : ∀ o, outer? = some o → domain = o.tape.inputCount)
    (nodup : (outer?.elim [] fun o => o.dependents).Nodup)
    (inside : ∀ d ∈ outer?.elim [] fun o => o.dependents, d < range) :
    Yields (coverOuter domain range outer?) () fun covered _ =>
      ∀ d, d ∈ covered ↔ d ∈ outer?.elim [] fun o => o.dependents := by
  cases outer? with
  | none => exact yields_pure fun d => by simp
  | some o =>
      refine yields_checkSize_bind (inputs o rfl) ?_
      exact (yields_cover nodup fun d hd => ⟨inside d hd, Std.TreeSet.not_mem_emptyc⟩).mono
        fun _ _ _ mem d => by simpa using mem d

theorem checkReads_eq_ok {l : Loop F} (indexed : ∀ row ∈ l.indexed, ∀ j ∈ row, j < domain)
    (nonIndexed : ∀ j ∈ l.nonIndexed, j < domain) (temporaries : ∀ k ∈ l.temporaries, k < count) :
    checkReads domain count l = .ok () := by
  have independents : (l.indexed.flatMap Array.toList ++ l.nonIndexed).find? (domain ≤ ·) =
      none := by
    rw [List.find?_eq_none]
    simp only [List.mem_append, List.mem_flatMap, Array.mem_toList_iff, decide_eq_true_eq,
      Nat.not_le]
    rintro j (⟨row, hrow, hj⟩ | hj)
    · exact indexed row hrow j hj
    · exact nonIndexed j hj
  have known : l.temporaries.find? (count ≤ ·) = none := by
    rw [List.find?_eq_none]
    simpa using temporaries
  rw [checkReads, independents, known]
  rfl

/-- The loops add what they compute, if nothing is computed twice. -/
theorem yields_coverLoops
    (nodup : (loops.flatMap fun l => l.dependents.flatMap Array.toList).Nodup)
    (inside : ∀ d ∈ loops.flatMap fun l => l.dependents.flatMap Array.toList,
      d < range ∧ d ∉ covered)
    (reads : ∀ l ∈ loops, checkReads domain count l = .ok ()) :
    Yields (loops.foldlM (fun covered l => do
      let covered ← cover range covered (l.dependents.flatMap Array.toList)
      checkReads domain count l
      return covered) covered) () fun covered' _ =>
        ∀ d, d ∈ covered' ↔ d ∈ covered ∨
          d ∈ loops.flatMap fun l => l.dependents.flatMap Array.toList := by
  refine yields_foldlM (m := Except Failure) (fun (done : List (Loop F)) (covered' : IndexSet) _ =>
    ∀ d, d ∈ covered' ↔ d ∈ covered ∨
      d ∈ done.flatMap fun l => l.dependents.flatMap Array.toList) ?_ ?_
  · exact fun d => by simp
  · rintro done l rest covered' _ rfl - mem
    rw [List.flatMap_append, List.flatMap_cons, List.nodup_append] at nodup
    obtain ⟨-, later, apart⟩ := nodup
    have fresh (d : Nat) (hd : d ∈ l.dependents.flatMap Array.toList) :
        d < range ∧ d ∉ covered' := by
      have listed := inside d (by
        rw [List.flatMap_append, List.flatMap_cons]
        exact List.mem_append_right _ (List.mem_append_left _ hd))
      refine ⟨listed.1, fun old => ((mem d).mp old).elim listed.2 fun earlier => ?_⟩
      exact apart d earlier d (List.mem_append_left _ hd) rfl
    refine (yields_cover (List.nodup_append.mp later).1 fresh).bind fun covered'' _ _ mem' => ?_
    rw [bind_of_ok (reads l (by simp))]
    refine yields_pure fun d => ?_
    rw [mem', mem, List.flatMap_append, List.flatMap_singleton, List.mem_append, or_assoc]

/-- A model whose parts are consistent is accepted. -/
theorem Valid.make_eq_ok {m : Model F} (valid : m.Valid) :
    make m.name m.domain m.range m.outer? m.loops = .ok m := by
  have computed_lt (d : Nat) (hd : d ∈ computed m.outer? m.loops) : d < m.range :=
    List.mem_range.mp (valid.covers.mem_iff.mp hd)
  have nodup := valid.covers.nodup_iff.mpr List.nodup_range
  obtain ⟨outerNodup, loopsNodup, apart⟩ := List.nodup_append.mp nodup
  obtain ⟨covered, outerOk, mem⟩ := exists_ok_of_yields (yields_coverOuter
    (fun _ => valid.outerInputs) outerNodup fun d hd => computed_lt d (List.mem_append_left _ hd))
  obtain ⟨covered', loopsOk, mem'⟩ := exists_ok_of_yields (yields_coverLoops loopsNodup
    (fun d hd => ⟨computed_lt d (List.mem_append_right _ hd),
      fun old => apart d ((mem d).mp old) d hd rfl⟩)
    fun l hl => checkReads_eq_ok (valid.indexed_lt hl) (valid.nonIndexed_lt hl)
      (valid.temporaries_lt hl))
  have complete : firstMissing? m.range covered' 0 = none := by
    refine firstMissing?_of_forall fun d lt => Std.TreeSet.contains_iff_mem.mpr ((mem' d).mpr ?_)
    rw [mem, ← List.mem_append]
    exact valid.covers.mem_iff.mpr (List.mem_range.mpr lt)
  have shape : ¬(m.domain = 0 || m.range = 0) = true := by
    have := valid.domain_pos
    have := valid.range_pos
    simp only [Bool.or_eq_true, decide_eq_true_eq]
    omega
  have extent : (checkExtent 1 m.range : Except Failure Unit) = .ok () :=
    if_pos (m.range.one_mul.symm ▸ valid.range_lt)
  rw [make, if_neg shape, bind_of_ok extent, checkParts, bind_of_ok outerOk, bind_of_ok loopsOk,
    complete]
  rfl

/-- A model is accepted exactly if it has independents and dependents, the
outer part reads all independents, every dependent is computed exactly once
and nothing else is, and the loops read what there is. -/
theorem exists_make_iff :
    (∃ m, make name domain range outer? loops = .ok m) ↔
      Valid ⟨name, domain, range, outer?, loops⟩ := by
  refine ⟨?_, fun valid => ⟨_, valid.make_eq_ok⟩⟩
  rintro ⟨m, made⟩
  have same : m = ⟨name, domain, range, outer?, loops⟩ := by
    rw [make] at made
    split at made
    case isTrue => cases made
    case isFalse =>
        obtain ⟨_, -, made⟩ := bind_eq_ok made
        obtain ⟨_, -, made⟩ := bind_eq_ok made
        cases made
        rfl
  subst same
  exact valid_of_make made

/-- The name of a model is only for the texts of errors. -/
theorem Accepted.rename {m : Model F} (accepted : m.Accepted) (name : String) :
    Accepted { m with name } where
  make_eq := Valid.make_eq_ok
    ⟨accepted.valid.domain_pos, accepted.valid.range_pos, accepted.valid.range_lt,
      accepted.valid.outerInputs, accepted.valid.covers, accepted.valid.indexed_lt,
      accepted.valid.nonIndexed_lt, accepted.valid.temporaries_lt⟩
  outer_eq := accepted.outer_eq
  loop_eq := accepted.loop_eq
  outerTape := accepted.outerTape
  loopTape := accepted.loopTape

end Model

end LoopDiff
