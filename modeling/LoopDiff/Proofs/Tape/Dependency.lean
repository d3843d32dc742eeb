import LoopDiff.Proofs.Maps
import LoopDiff.Proofs.Tape.Sweep
import LoopDiff.Proofs.Tape.Words
import LoopDiff.Tape.Dependency
import Mathlib.Tactic.LinearCombination

/-!
# LoopDiff.Proofs.Tape.Dependency

What the sparsity of a tape says about its derivatives.

The masks of a tape are the dependencies of its entries (`Tape.DependsOn`),
its live entries are those that a root leads to (`Tape.LeadsTo`), and the
pairs of its Hessian pattern are the inputs that meet in a live operation
(`Tape.Meet`).  An entry has no derivative by an input that it does not
depend on, and no second derivative by two inputs that do not meet: a second
derivative is a combination of products of first derivatives of two operands
that interact, and of second derivatives of the operands.
-/

namespace LoopDiff

open Std
open Elementary (byLeft byRight slopeUnary slopePowi)

variable {F R : Type} [Scalar F] [Elementary R] [Embeds F R]

/-! ## Dependencies -/

namespace Tape

/-- Entry `i` is reached from input `j`. -/
inductive DependsOn (t : Tape F) : Nat → Nat → Prop where
  | input {i : Nat} : t.entries[i]? = some .input → DependsOn t i i
  | step {i a j : Nat} {e : Entry F} : t.entries[i]? = some e → a ∈ e.args → DependsOn t a j →
      DependsOn t i j

/-- Entry `i` is an operand of entry `r`, directly or not, or is `r`. -/
inductive LeadsTo (t : Tape F) (i : Nat) : Nat → Prop where
  | refl : LeadsTo t i i
  | step {r a : Nat} {e : Entry F} : t.entries[r]? = some e → a ∈ e.args → LeadsTo t i a →
      LeadsTo t i r

variable {t : Tape F} (wf : t.WellFormed)

include wf

omit [Scalar F] in
theorem WellFormed.dependsOn_lt {i j : Nat} (h : t.DependsOn i j) : j < t.inputCount := by
  induction h with
  | input h => exact (wf.input_iff _).mp ⟨_, h, rfl⟩
  | step _ _ _ ih => exact ih

omit [Scalar F] wf in
theorem dependsOn_input {i j : Nat} (h : t.entries[i]? = some .input) :
    t.DependsOn i j ↔ i = j := by
  constructor
  · intro dep
    cases dep with
    | input => rfl
    | step he ha =>
        rw [h] at he
        cases he
        simp [Entry.args] at ha
  · rintro rfl
    exact .input h

omit [Scalar F] wf in
theorem dependsOn_op {i j : Nat} {e : Entry F} (h : t.entries[i]? = some e)
    (op : e.isInput = false) : t.DependsOn i j ↔ ∃ a ∈ e.args, t.DependsOn a j := by
  constructor
  · intro dep
    cases dep with
    | input he =>
        rw [h] at he
        cases he
        cases op
    | step he ha hd =>
        rw [h] at he
        cases he
        exact ⟨_, ha, hd⟩
  · rintro ⟨a, ha, hd⟩
    exact .step h ha hd

/-- An entry has no derivative by an input that it does not depend on. -/
theorem WellFormed.partialAt_eq_zero (x : Nat → R) {i j : Nat} (h : ¬t.DependsOn i j) :
    t.partialAt x j i = 0 := by
  induction i using Nat.strong_induction_on with
  | _ i ih =>
    cases he : t.entries[i]? with
    | none => rw [partialAt, valueAt_of_none t he, Dual.eps_zero]
    | some e =>
        cases op : e.isInput with
        | true =>
            have lt := (wf.input_iff i).mp ⟨e, he, op⟩
            cases e with
            | input =>
                rw [wf.partialAt_input lt, if_neg (mt (dependsOn_input he).mpr h)]
            | _ => cases op
        | false =>
            have zero : e.tangent (t.valueAt x) (t.partialAt x j) =
                e.tangent (t.valueAt x) fun _ => 0 := by
              refine Entry.tangent_congr fun a ha => ih a ?_ fun dep => h (.step he ha dep)
              exact wf.reads_lt he a (Entry.mem_reads_of_mem_args ha)
            rw [wf.partialAt_of_op he op, zero]
            cases e with
            | binary op left right => cases right <;> simp [Entry.tangent]
            | _ => simp [Entry.tangent]

end Tape

/-! ## Masks -/

/-- The union of masks found in a table. -/
theorem yields_union {size n : Nat} {s : Masks n} {args : List Nat} (lt : ∀ a ∈ args, a < size) :
    Yields (args.foldlM (fun mask a =>
        if a < size then .ok (mask.union (s.masks.getD a (.empty n)))
        else .error (.crash none)) (.empty n) : Except Failure (Words n)) () fun mask _ =>
        ∀ j, mask.has j = true ↔ ∃ a ∈ args, (s.masks.getD a (.empty n)).has j = true := by
  refine yields_foldlM (fun done (mask : Words n) _ =>
    ∀ j, mask.has j = true ↔ ∃ a ∈ done, (s.masks.getD a (.empty n)).has j = true)
    (by simp [Words.has_empty]) ?_
  intro done a rest mask _ split _ hmask
  have mem : a ∈ args := by rw [split]; simp
  rw [if_pos (lt a mem)]
  refine yields_ok rfl fun j => ?_
  rw [Words.has_union, Bool.or_eq_true, hmask j]
  simp only [List.mem_append, List.mem_singleton]
  grind

namespace Tape

variable {t : Tape F} (wf : t.WellFormed)

include wf

omit [Scalar F] in
/-- The masks of a well-formed tape are its dependencies. -/
theorem WellFormed.yields_dependencies :
    Yields t.dependencies () fun masks _ => masks.size = t.size ∧
      ∀ i < t.size, ∀ j, (masks.getD i (.empty _)).has j = true ↔ t.DependsOn i j := by
  refine (yields_foldlM (fun done (s : Masks t.inputCount) _ => s.masks.size = done.length ∧
    s.inputs = min done.length t.inputCount ∧
      ∀ i < done.length, ∀ j, (s.masks.getD i (.empty _)).has j = true ↔ t.DependsOn i j)
    ⟨rfl, by simp, by simp⟩ ?_).bind fun s _ _ ⟨size, _, h⟩ => ?_
  · intro done e rest s _ split _ ⟨size, inputs, h⟩
    have he := getElem?_of_split split
    have mask : Yields (e.mask t.size t.inputCount s) () fun mask _ =>
        ∀ j, mask.has j = true ↔ t.DependsOn done.length j := by
      cases op : e.isInput with
      | true =>
          have lt := (wf.input_iff _).mp ⟨e, he, op⟩
          cases e with
          | input =>
              have room : s.inputs / 64 < wordsFor t.inputCount := by
                rw [inputs, wordsFor]
                omega
              obtain ⟨mask, run, has⟩ := (Words.empty t.inputCount).exists_insert room
              refine yields_ok run fun j => ?_
              rw [has j, Words.has_empty, dependsOn_input he, inputs, Nat.min_eq_left lt.le]
              simp [eq_comm]
          | _ => cases op
      | false =>
          have lt (a : Nat) (ha : a ∈ e.args) : a < done.length :=
            wf.reads_lt he a (Entry.mem_reads_of_mem_args ha)
          have inside (a : Nat) (ha : a ∈ e.args) : a < t.size := by
            have := lt a ha
            have := (Array.getElem?_eq_some_iff.mp he).1
            rw [Tape.size]
            omega
          have union := yields_union (s := s) inside
          have eq : e.mask t.size t.inputCount s = e.args.foldlM (fun mask a =>
              if a < t.size then .ok (mask.union (s.masks.getD a (.empty _)))
              else .error (.crash none)) (.empty _) := by
            cases e <;> first | rfl | cases op
          rw [eq]
          refine union.mono fun mask _ _ hmask j => ?_
          rw [hmask j, dependsOn_op he op]
          exact exists_congr fun a => and_congr_right fun ha => h a (lt a ha) j
    refine mask.bind fun mask _ _ hmask => yields_pure ⟨by simp [size], ?_, ?_⟩
    · have iff := wf.input_iff done.length
      rw [he] at iff
      simp only [List.length_append, List.length_singleton, inputs]
      cases e with
      | input =>
          have := iff.mp ⟨_, rfl, rfl⟩
          simp only [Entry.inputsAdded]
          omega
      | _ =>
          have : ¬done.length < t.inputCount := fun lt => by
            obtain ⟨e', eq, input⟩ := iff.mpr lt
            cases eq
            cases input
          simp only [Entry.inputsAdded]
          omega
    · intro i lt j
      rw [Array.getD_eq_getD_getElem?, Array.getElem?_push]
      by_cases last : i = s.masks.size
      · rw [if_pos last, last, size]
        exact hmask j
      · rw [if_neg last, ← Array.getD_eq_getD_getElem?]
        rw [List.length_append, List.length_singleton] at lt
        exact h i (by omega) j
  · refine yields_pure ⟨by simpa [Tape.size] using size, fun i lt j => h i ?_ j⟩
    simpa [Tape.size] using lt

omit [Scalar F] in
/-- The rows of the Jacobian pattern are the dependencies of the outputs. -/
theorem WellFormed.yields_jacobianSparsity :
    Yields t.jacobianSparsity () fun rows _ =>
      List.Forall₂ (fun o (row : IndexSet) => ∀ j, j ∈ row ↔ t.DependsOn o j) t.outputs rows := by
  refine wf.yields_dependencies.bind fun masks _ _ ⟨size, h⟩ => ?_
  refine yields_mapM (P := fun o (row : IndexSet) _ => ∀ j, j ∈ row ↔ t.DependsOn o j)
    (fun _ _ _ _ _ h => h) fun o ho _ _ => ?_
  have lt := wf.output_lt o ho
  have at_ := Array.getElem?_eq_getElem (size ▸ lt)
  refine yields_present_bind at_ (yields_pure fun j => ?_)
  have hj := h o lt j
  rw [Array.getD_eq_getD_getElem?, at_, Option.getD_some] at hj
  rw [TreeSet.mem_ofList, List.contains_iff_mem, Words.mem_bits, hj]
  exact ⟨fun h => h.2, fun h => ⟨wf.dependsOn_lt h, h⟩⟩

omit wf [Scalar F] in
theorem mem_row_iff {rows : List IndexSet} (depends : List.Forall₂ (fun o (row : IndexSet) =>
    ∀ j, j ∈ row ↔ t.DependsOn o j) t.outputs rows) {k j : Nat} :
    j ∈ rows.getD k ∅ ↔ k < t.outputCount ∧ t.DependsOn (t.outputAt k) j := by
  rw [List.getD_eq_getElem?_getD]
  cases hk : rows[k]? with
  | none =>
      have beyond : t.outputCount ≤ k :=
        depends.length_eq.trans_le (List.getElem?_eq_none_iff.mp hk)
      simpa using fun lt => absurd lt (Nat.not_lt.mpr beyond)
  | some row =>
      obtain ⟨o, ho, mem⟩ := exists_left_of_forall₂ depends hk
      have lt : k < t.outputCount := (List.getElem?_eq_some_iff.mp ho).1
      rw [Option.getD_some, outputAt_eq ho, ← mem j, and_iff_right lt]

/-! ## Liveness -/

omit wf [Scalar F]

theorem yields_markAt {live : Array Bool} {i : Nat} (lt : i < live.size) :
    Yields (markAt live i) () fun live' _ => live'.size = live.size ∧
      ∀ j, live'.getD j false = true ↔ live.getD j false = true ∨ j = i := by
  refine yields_ok (by rw [markAt, if_pos lt]) ⟨by simp, fun j => ?_⟩
  rw [Array.getD_eq_getD_getElem?, Array.getD_eq_getD_getElem?, Array.getElem?_setIfInBounds]
  by_cases eq : i = j
  · subst eq
    simp [lt]
  · simp [eq, Ne.symm eq]

theorem yields_markAll {live : Array Bool} {is : List Nat} (lt : ∀ i ∈ is, i < live.size) :
    Yields (is.foldlM markAt live) () fun live' _ => live'.size = live.size ∧
      ∀ j, live'.getD j false = true ↔ live.getD j false = true ∨ j ∈ is := by
  refine yields_foldlM (fun done (live' : Array Bool) _ => live'.size = live.size ∧
    ∀ j, live'.getD j false = true ↔ live.getD j false = true ∨ j ∈ done) (by simp) ?_
  intro done i rest live' _ split _ ⟨size, h⟩
  have mem : i ∈ is := by rw [split]; simp
  refine (yields_markAt (size ▸ lt i mem)).mono fun live'' _ _ ⟨size', h'⟩ => ?_
  refine ⟨size'.trans size, fun j => ?_⟩
  rw [h' j, h j, List.mem_append, List.mem_singleton, or_assoc]

theorem LeadsTo.trans {i j r : Nat} (h : t.LeadsTo i j) (h' : t.LeadsTo j r) :
    t.LeadsTo i r := by
  induction h' with
  | refl => exact h
  | step he ha _ ih => exact .step he ha ih

/-- The invariant of the search for live entries that has come down to
entry `i`. -/
structure Marked (t : Tape F) (roots : List Nat) (i : Nat) (live : Array Bool) : Prop where
  size_eq : live.size = t.size
  root {r : Nat} : r ∈ roots → live.getD r false = true
  sound {j : Nat} : live.getD j false = true → ∃ r ∈ roots, t.LeadsTo j r
  closed {j : Nat} {e : Entry F} : i ≤ j → t.entries[j]? = some e → live.getD j false = true →
    ∀ a ∈ e.args, live.getD a false = true

variable {roots : List Nat} {live live' : Array Bool} {i : Nat} {e : Entry F}

theorem Marked.mark (h : t.Marked roots (i + 1) live) (he : t.entries[i]? = some e)
    (alive : live.getD i false = true) (lt : ∀ a ∈ e.args, a < i) (size : live'.size = live.size)
    (h' : ∀ j, live'.getD j false = true ↔ live.getD j false = true ∨ j ∈ e.args) :
    t.Marked roots i live' := by
  refine ⟨size.trans h.size_eq, fun hr => (h' _).mpr (.inl (h.root hr)), fun {j} hj => ?_,
    fun {j e'} le he' hj a ha => (h' a).mpr ?_⟩
  · rcases (h' j).mp hj with hj | hj
    · exact h.sound hj
    · obtain ⟨r, hr, path⟩ := h.sound alive
      exact ⟨r, hr, (LeadsTo.step he hj .refl).trans path⟩
  · by_cases eq : j = i
    · subst eq
      rw [he] at he'
      cases he'
      exact .inr ha
    · rcases (h' j).mp hj with hj | hj
      · exact .inl (h.closed (by omega) he' hj a ha)
      · have := lt j hj
        omega

theorem Marked.skip (h : t.Marked roots (i + 1) live) (dead : ¬live.getD i false = true) :
    t.Marked roots i live := by
  refine ⟨h.size_eq, h.root, h.sound, fun {j e'} le he' hj => ?_⟩
  by_cases eq : j = i
  · exact absurd (eq ▸ hj) dead
  · exact h.closed (by omega) he' hj

theorem Marked.live_iff (h : t.Marked roots 0 live) (i : Nat) :
    live.getD i false = true ↔ ∃ r ∈ roots, t.LeadsTo i r := by
  refine ⟨h.sound, fun ⟨r, hr, path⟩ => ?_⟩
  have alive := h.root hr
  clear hr
  induction path with
  | refl => exact alive
  | step he ha _ ih => exact ih (h.closed (Nat.zero_le _) he alive _ ha)

include wf

/-- The live entries are those that some root leads to. -/
theorem WellFormed.yields_liveEntries (inside : ∀ r ∈ roots, r < t.size) :
    Yields (t.liveEntries roots) () fun live _ => live.size = t.size ∧
      ∀ i, live.getD i false = true ↔ ∃ r ∈ roots, t.LeadsTo i r := by
  refine (yields_markAll (by simpa [Tape.size] using inside)).bind fun live _ _ marks => ?_
  obtain ⟨size, h⟩ := marks
  rw [Array.size_replicate] at size
  have start : t.Marked roots t.size live := by
    refine ⟨size, fun hr => (h _).mpr (.inr hr), fun {i} hi => ?_, fun {i e} le he => ?_⟩
    · rcases (h i).mp hi with hi | hi
      · cases (getD_replicate ..).symm.trans hi
      · exact ⟨i, hi, .refl⟩
    · exact absurd (Array.getElem?_eq_some_iff.mp he).1 (Nat.not_lt.mpr le)
  refine (yields_foldlM (fun done live _ => t.Marked roots (t.size - done.length) live)
    start ?_).mono fun live _ _ h => ?_
  · rintro done ⟨e, i⟩ rest live _ split _ h
    obtain ⟨he, next⟩ := getElem?_of_reverse_split split
    have this : t.size - (done ++ [(e, i)]).length = i := by
      rw [List.length_append, List.length_singleton]
      omega
    simp only [this]
    rw [← next] at h
    by_cases alive : live.getD i false = true
    · rw [if_pos alive]
      have lt (a : Nat) (ha : a ∈ e.args) : a < i :=
        wf.reads_lt he a (Entry.mem_reads_of_mem_args ha)
      refine (yields_markAll fun a ha => ?_).mono fun live' _ _ marks => ?_
      · have : i < t.size := (Array.getElem?_eq_some_iff.mp he).1
        have := lt a ha
        have := h.size_eq
        omega
      · exact h.mark he alive lt marks.1 marks.2
    · rw [if_neg alive]
      exact yields_pure (h.skip alive)
  · rw [List.length_reverse, List.length_zipIdx, Array.length_toList, Tape.size,
      Nat.sub_self] at h
    exact ⟨h.size_eq, h.live_iff⟩

end Tape

/-! ## Meetings -/

namespace Entry

/-- The pairs of operands whose inputs an operation makes meet. -/
def meets : Entry F → List (Nat × Nat)
  | input | const _ => []
  | powi arg _ => [(arg, arg)]
  | unary .neg _ _ => []
  | unary _ arg _ => [(arg, arg)]
  | binary op left right =>
    let right := right.getD left
    match op with
    | .add | .sub => []
    | .mul => [(left, right)]
    | .div => [(left, right), (right, right)]
    | .pow => [(left, right), (right, right), (left, left)]

omit [Scalar F] in
theorem interactions_eq {n : Nat} (mask : Nat → Words n) (e : Entry F) :
    e.interactions mask = e.meets.map fun p => (mask p.1, mask p.2) := by
  cases e with
  | input | const c => rfl
  | powi arg n => rfl
  | unary op arg second => cases op <;> rfl
  | binary op left right => cases op <;> rfl

omit [Scalar F] in
theorem mem_args_of_mem_meets {e : Entry F} (complete : e.complete) {p : Nat × Nat}
    (h : p ∈ e.meets) : p.1 ∈ e.args ∧ p.2 ∈ e.args := by
  cases e with
  | input | const c => cases h
  | powi arg n =>
      rw [meets, List.mem_singleton] at h
      simp [h, args]
  | unary op arg second =>
      have : p = (arg, arg) := by cases op <;> simp_all [meets]
      simp [this, args]
  | binary op left right =>
      obtain ⟨right, rfl⟩ := Option.isSome_iff_exists.mp complete
      have : p = (left, right) ∨ p = (right, right) ∨ p = (left, left) := by
        cases op <;> simp [meets] at h <;> tauto
      rcases this with rfl | rfl | rfl <;> simp [args]

end Entry

namespace Meetings

variable {n : Nat}

theorem size_add (rows : Meetings n) (left right : Words n) :
    (rows.add left right).size = rows.size := by
  suffices h : ∀ (l : List Nat) (rows : Meetings n),
      (l.foldl (fun (rows : Meetings n) i => rows.modify i (·.union right)) rows).size =
        rows.size from
    h _ rows
  intro l
  induction l with
  | nil => simp
  | cons i l ih =>
      intro rows
      rw [List.foldl_cons, ih, Array.size_modify]

theorem has_add (rows : Meetings n) (left right : Words n) {i : Nat} (lt : i < n)
    (lt' : i < rows.size) (k : Nat) :
    ((rows.add left right).getD i (.empty n)).has k = true ↔
      (rows.getD i (.empty n)).has k = true ∨ left.has i = true ∧ right.has k = true := by
  suffices h : ∀ (l : List Nat) (rows : Meetings n), i < rows.size →
      (((l.foldl (fun (rows : Meetings n) i => rows.modify i (·.union right)) rows).getD i
        (.empty n)).has k = true ↔
          (rows.getD i (.empty n)).has k = true ∨ i ∈ l ∧ right.has k = true) by
    rw [add, h _ rows lt', Words.mem_bits]
    simp [lt]
  intro l
  induction l with
  | nil => simp
  | cons i' l ih =>
      intro rows lt
      rw [List.foldl_cons, ih _ (by simpa using lt), Array.getD_eq_getD_getElem?,
        Array.getElem?_modify, Array.getD_eq_getD_getElem?, List.mem_cons]
      by_cases eq : i' = i
      · subst eq
        simp [lt]
        grind
      · simp [eq, Ne.symm eq]

/-- Whether the inputs `j` and `k` are among those that two masks make
meet. -/
def Met (masks : Words n × Words n) (j k : Nat) : Prop :=
  masks.1.has j = true ∧ masks.2.has k = true ∨ masks.2.has j = true ∧ masks.1.has k = true

theorem size_foldl_addBoth (meeting : List (Words n × Words n)) (rows : Meetings n) :
    (meeting.foldl addBoth rows).size = rows.size := by
  induction meeting generalizing rows with
  | nil => rfl
  | cons masks meeting ih => rw [List.foldl_cons, ih, addBoth, size_add, size_add]

theorem has_foldl_addBoth (meeting : List (Words n × Words n)) (rows : Meetings n) {j : Nat}
    (lt : j < n) (lt' : j < rows.size) (k : Nat) :
    ((meeting.foldl addBoth rows).getD j (.empty n)).has k = true ↔
      (rows.getD j (.empty n)).has k = true ∨ ∃ masks ∈ meeting, Met masks j k := by
  induction meeting generalizing rows with
  | nil => simp
  | cons masks meeting ih =>
      rw [List.foldl_cons, ih (rows.addBoth masks) (by rwa [addBoth, size_add, size_add]),
        addBoth, has_add _ _ _ lt (by rwa [size_add]), has_add _ _ _ lt lt']
      simp only [List.mem_cons, exists_eq_or_imp, Met, or_assoc]

theorem mem_pairs_iff (rows : Meetings n) {j k : Nat} :
    (j, k) ∈ rows.pairs ↔
      j < rows.size ∧ k < n ∧ (rows.getD j (.empty n)).has k = true := by
  rw [pairs, TreeSet.mem_ofList, List.contains_iff_mem, List.mem_flatMap]
  constructor
  · rintro ⟨⟨mask, i⟩, hmask, hpair⟩
    obtain ⟨k', hk', eq⟩ := List.mem_map.mp hpair
    obtain ⟨rfl, rfl⟩ := Prod.mk.inj eq
    rw [List.mk_mem_zipIdx_iff_getElem?, Array.getElem?_toList] at hmask
    obtain ⟨lt, bit⟩ := Words.mem_bits.mp hk'
    refine ⟨(Array.getElem?_eq_some_iff.mp hmask).1, lt, ?_⟩
    rwa [Array.getD_eq_getD_getElem?, hmask]
  · rintro ⟨lt, lt', bit⟩
    have at_ := Array.getElem?_eq_getElem lt
    rw [Array.getD_eq_getD_getElem?, at_, Option.getD_some] at bit
    refine ⟨(_, j), List.mk_mem_zipIdx_iff_getElem?.mpr (Array.getElem?_toList ▸ at_), ?_⟩
    exact List.mem_map.mpr ⟨k, Words.mem_bits.mpr ⟨lt', bit⟩, rfl⟩

theorem mem_pairs {j k : Nat} (meeting : List (Words n × Words n)) :
    (j, k) ∈ (meeting.foldl addBoth (Array.replicate n (.empty n))).pairs ↔
      j < n ∧ k < n ∧ ∃ masks ∈ meeting, Met masks j k := by
  rw [mem_pairs_iff, size_foldl_addBoth, Array.size_replicate]
  refine and_congr_right fun lt => and_congr_right fun _ => ?_
  rw [has_foldl_addBoth _ _ lt (by rwa [Array.size_replicate])]
  simp [Array.getD_eq_getD_getElem?, lt, Words.has_empty]

end Meetings

namespace Tape

/-- The inputs `j` and `k` meet in an operation that leads to one of the
entries `roots`. -/
def Meet (t : Tape F) (roots : List Nat) (j k : Nat) : Prop :=
  ∃ r ∈ roots, ∃ i e, t.LeadsTo i r ∧ t.entries[i]? = some e ∧ ∃ p ∈ e.meets,
    t.DependsOn p.1 j ∧ t.DependsOn p.2 k ∨ t.DependsOn p.2 j ∧ t.DependsOn p.1 k

variable {t : Tape F} {roots : List Nat} {j k : Nat}

omit [Scalar F] in
theorem Meet.symm (h : t.Meet roots j k) : t.Meet roots k j := by
  obtain ⟨r, hr, i, e, path, he, p, hp, met⟩ := h
  refine ⟨r, hr, i, e, path, he, p, hp, ?_⟩
  tauto

variable (wf : t.WellFormed)

include wf

omit [Scalar F] in
theorem WellFormed.meet_lt (h : t.Meet roots j k) : j < t.inputCount ∧ k < t.inputCount := by
  obtain ⟨r, hr, i, e, path, he, p, hp, met | met⟩ := h <;>
    exact ⟨wf.dependsOn_lt met.1, wf.dependsOn_lt met.2⟩

omit [Scalar F] in
/-- The pairs of the Hessian pattern are the inputs that meet. -/
theorem WellFormed.yields_hessianSparsityFor {selected : List Nat}
    (inside : ∀ k ∈ selected, k < t.outputCount) :
    Yields (t.hessianSparsityFor selected) () fun pairs _ =>
      ∀ j k, (j, k) ∈ pairs ↔ t.Meet (selected.map t.outputAt) j k := by
  have yields_roots : Yields
      (selected.mapM fun k => present t.outputs[k]? : Except Failure (List Nat)) ()
      fun roots _ => roots = selected.map t.outputAt := by
    refine (yields_mapM (P := fun k o _ => o = t.outputAt k) (fun _ _ _ _ _ h => h)
      fun k hk _ _ => ?_).mono fun roots _ _ h => eq_map_of_forall₂ h
    have at_ := List.getElem?_eq_getElem (inside k hk)
    exact yields_present at_ (by simp [outputAt, List.getD, at_])
  refine yields_roots.bind fun roots _ _ hroots => ?_
  subst hroots
  have below (r : Nat) (hr : r ∈ selected.map t.outputAt) : r < t.size := by
    obtain ⟨k, hk, rfl⟩ := List.mem_map.mp hr
    exact wf.outputAt_lt (inside k hk)
  refine (wf.yields_liveEntries below).bind fun live _ _ reached => ?_
  refine wf.yields_dependencies.bind fun masks _ _ dependencies => yields_pure fun j k => ?_
  have bit {i : Nat} {e : Entry F} (he : t.entries[i]? = some e) {p : Nat × Nat}
      (hp : p ∈ e.meets) (a : Nat) (ha : a = p.1 ∨ a = p.2) (j : Nat) :
      (if a < i then masks.getD a (.empty _) else .empty _).has j = true ↔ t.DependsOn a j := by
    have args := Entry.mem_args_of_mem_meets (wf.complete he) hp
    have mem : a ∈ e.args := by rcases ha with rfl | rfl <;> simp [args]
    have lt := wf.reads_lt he a (Entry.mem_reads_of_mem_args mem)
    have lt' : i < t.size := (Array.getElem?_eq_some_iff.mp he).1
    rw [if_pos lt, dependencies.2 a (lt.trans lt')]
  rw [Meetings.mem_pairs]
  constructor
  · rintro ⟨-, -, masks', hm, met⟩
    obtain ⟨⟨e, i⟩, hei, hm⟩ := List.mem_flatMap.mp hm
    rw [List.mk_mem_zipIdx_iff_getElem?, Array.getElem?_toList] at hei
    dsimp only at hm
    by_cases alive : live.getD i false = true
    · rw [if_pos alive, Entry.interactions_eq] at hm
      obtain ⟨p, hp, rfl⟩ := List.mem_map.mp hm
      obtain ⟨r, hr, path⟩ := (reached.2 i).mp alive
      refine ⟨r, hr, i, e, path, hei, p, hp, ?_⟩
      simpa only [Meetings.Met, bit hei hp _ (.inl rfl), bit hei hp _ (.inr rfl)] using met
    · rw [if_neg alive] at hm
      cases hm
  · intro met
    obtain ⟨ltj, ltk⟩ := wf.meet_lt met
    obtain ⟨r, hr, i, e, path, he, p, hp, met⟩ := met
    let mask (a : Nat) : Words t.inputCount :=
      if a < i then masks.getD a (.empty _) else .empty _
    refine ⟨ltj, ltk, (mask p.1, mask p.2), List.mem_flatMap.mpr ⟨(e, i), ?_, ?_⟩, ?_⟩
    · rwa [List.mk_mem_zipIdx_iff_getElem?, Array.getElem?_toList]
    · dsimp only
      rw [if_pos ((reached.2 i).mpr ⟨r, hr, path⟩), Entry.interactions_eq]
      exact List.mem_map.mpr ⟨p, hp, rfl⟩
    · simpa only [Meetings.Met, mask, bit he hp _ (.inl rfl), bit he hp _ (.inr rfl)] using met

end Tape

/-! ## Second derivatives -/

omit [Scalar F] [Embeds F R] in
/-- The second tangent of an operation vanishes if those of its operands do
and no first tangents of interacting operands meet. -/
theorem Entry.eps_tangent_eq_zero {e : Entry F} (complete : e.complete) {X D : Nat → Dual R}
    (second : ∀ a ∈ e.args, (D a).eps = 0)
    (first : ∀ p ∈ e.meets, (D p.1).re * (X p.2).eps = 0 ∧ (D p.2).re * (X p.1).eps = 0) :
    (e.tangent X D).eps = 0 := by
  cases e with
  | input | const c => rfl
  | powi arg n =>
      have h := (first (arg, arg) (by simp [meets])).1
      have h' := second arg (by simp [args])
      simp only [tangent, slopePowi, Dual.eps_mul, Dual.re_mul, Dual.eps_powi, Dual.re_powi,
        Dual.re_intCast, Dual.eps_intCast, h', zero_mul, add_zero]
      linear_combination (n.toInt : R) * (n.toInt - 1 : Int) *
        Elementary.powi (X arg).re (n.toInt - 1 - 1) * h
  | unary op arg second' =>
      have h' := second arg (by simp [args])
      cases op with
      | neg => simp [tangent, slopeUnary, h']
      | _ =>
          have h := (first (arg, arg) (by simp [meets])).1
          simp only [tangent, slopeUnary, Dual.eps_mul, Dual.re_mul, Dual.eps_unary, Dual.re_unary,
            Dual.eps_neg, Dual.re_neg, Dual.eps_add, Dual.re_add, Dual.eps_sub, Dual.re_sub,
            Dual.eps_one, Dual.re_one, h', zero_mul, add_zero]
          grind
  | binary op left right =>
      obtain ⟨right, rfl⟩ := Option.isSome_iff_exists.mp complete
      have hl := second left (by simp [args])
      have hr := second right (by simp [args])
      have meet (p : Nat × Nat) (hp : p ∈ (Entry.binary op left (some right) : Entry F).meets) :=
        first p hp
      cases op with
      | add => simp [tangent, byLeft, byRight, hl, hr]
      | sub => simp [tangent, byLeft, byRight, hl, hr]
      | mul =>
          have h := meet (left, right) (by simp [meets])
          simp only [tangent, byLeft, byRight, Option.map_some, Option.getD_some, Dual.eps_mul,
            Dual.eps_add, hl, hr, h.1, h.2, zero_mul, add_zero]
      | div =>
          have h := meet (left, right) (by simp [meets])
          have h' := meet (right, right) (by simp [meets])
          simp only [tangent, byLeft, byRight, slopeUnary, Option.map_some, Option.getD_some,
            Dual.eps_mul, Dual.re_mul, Dual.eps_add, Dual.eps_neg, Dual.eps_unary, Dual.re_unary,
            hl, hr, zero_mul, add_zero]
          grind
      | pow =>
          have h := meet (left, right) (by simp [meets])
          have h' := meet (right, right) (by simp [meets])
          have h'' := meet (left, left) (by simp [meets])
          simp only [tangent, byLeft, byRight, slopeUnary, Option.map_some, Option.getD_some,
            Dual.eps_mul, Dual.re_mul, Dual.eps_add, Dual.eps_unary, Dual.re_unary, Dual.eps_pow,
            Dual.re_pow, Dual.eps_sub, Dual.eps_one, Dual.re_sub, Dual.re_one,
            hl, hr, zero_mul, add_zero]
          grind

namespace Tape

variable {t : Tape F} (wf : t.WellFormed)

include wf

/-- An entry has no second derivative by two inputs that do not meet. -/
theorem WellFormed.secondAt_eq_zero [PowerRule R] (x : Nat → R) {roots : List Nat} {j k r : Nat}
    (h : ¬t.Meet roots j k) (hr : r ∈ roots) : t.secondAt x j k r = 0 := by
  suffices main : ∀ i, t.LeadsTo i r → t.secondAt x j k i = 0 from main r .refl
  intro i
  induction i using Nat.strong_induction_on with
  | _ i ih =>
    intro path
    cases he : t.entries[i]? with
    | none => rw [secondAt, partialAt, valueAt_of_none t he, Dual.eps_zero, Dual.eps_zero]
    | some e =>
        cases op : e.isInput with
        | true =>
            have lt := (wf.input_iff i).mp ⟨e, he, op⟩
            rw [secondAt, wf.partialAt_input lt]
            split <;> rfl
        | false =>
            rw [secondAt, wf.partialAt_of_op he op]
            refine Entry.eps_tangent_eq_zero (wf.complete he) (fun a ha => ?_) fun p hp => ?_
            · refine ih a (wf.reads_lt he a (Entry.mem_reads_of_mem_args ha)) ?_
              exact (LeadsTo.step he ha .refl).trans path
            · have product (a b : Nat) (apart : ¬(t.DependsOn a j ∧ t.DependsOn b k)) :
                  (t.partialAt (seeded x k) j a).re * (t.valueAt (seeded x k) b).eps = 0 := by
                rw [re_partialAt]
                by_cases dep : t.DependsOn a j
                · have := wf.partialAt_eq_zero x (mt (And.intro dep) apart)
                  rw [partialAt] at this
                  rw [this, mul_zero]
                · have : t.partialAt (fun l => (seeded x k l).re) j a = 0 :=
                    wf.partialAt_eq_zero x dep
                  rw [this, zero_mul]
              constructor
              · exact product _ _ fun met => h ⟨r, hr, i, e, path, he, p, hp, .inl met⟩
              · exact product _ _ fun met => h ⟨r, hr, i, e, path, he, p, hp, .inr met⟩

end Tape

end LoopDiff
