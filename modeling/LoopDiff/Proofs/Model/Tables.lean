import LoopDiff.Model.Tables
import LoopDiff.Proofs.Model.Dependency

/-!
# LoopDiff.Proofs.Model.Tables

The Hessian tables of a loop are exact.

A pair of inputs is in a table at an iteration exactly if it is in the
pattern and its inputs read there what the table and the key say
(`Loop.holds_hessianTables`, `Loop.Valid.placeOf?_eq_some`).  Nothing is
lost, nothing is in two tables, and since the pattern is symmetric the tables
are transposes of each other.
-/

namespace LoopDiff

open Std (TreeMap)

/-! ## Tables -/

namespace PairTable

variable {table : PairTable} {n it it' : Nat} {key key' pair pair' : Nat × Nat}

/-- The pair is under the key, in the set of the iteration. -/
def Lists (table : PairTable) (key : Nat × Nat) (it : Nat) (pair : Nat × Nat) : Prop :=
  pair ∈ (table.lookup key).getD it ∅

/-- Under every key there is one set for each of `n` iterations. -/
def Sized (table : PairTable) (n : Nat) : Prop :=
  ∀ (key : Nat × Nat) (sets : Array PairSet), table[key]? = some sets → sets.size = n

theorem not_lists_empty : ¬Lists ∅ key it pair := by
  simp [Lists, lookup]

theorem sized_empty : Sized ∅ n := fun key sets h => by simp at h

/-- Making room for a key adds no pairs. -/
theorem mem_room : pair ∈ ((table.getD key (.replicate n ∅))[it]?.getD ∅) ↔
    table.Lists key it pair := by
  rw [Lists, lookup, TreeMap.getD_eq_getD_getElem?, TreeMap.getD_eq_getD_getElem?,
    List.getD_eq_getElem?_getD, Array.getElem?_toList]
  cases table[key]? with
  | some sets => rfl
  | none =>
      -- Where there is nothing, `lookup` has no sets and the room has empty ones.
      rw [Option.getD_none, Option.getD_none, Array.getElem?_replicate]
      split <;> simp

theorem Sized.size_room (h : table.Sized n) : (table.getD key (.replicate n ∅)).size = n := by
  rw [TreeMap.getD_eq_getD_getElem?]
  cases found : table[key]? with
  | some sets => exact h key sets found
  | none => exact Array.size_replicate

theorem Sized.add (h : table.Sized n) : (table.add key n it pair).Sized n := by
  intro key' sets found
  rw [PairTable.add, TreeMap.getElem?_insert] at found
  split at found
  case isTrue =>
      cases found
      rw [Array.size_modify, h.size_room]
  case isFalse => exact h key' sets found

/-- Adding a pair adds this pair, under its key and at its iteration. -/
theorem Sized.lists_add (h : table.Sized n) (lt : it < n) :
    (table.add key n it pair).Lists key' it' pair' ↔
      table.Lists key' it' pair' ∨ key' = key ∧ it' = it ∧ pair' = pair := by
  rw [Lists, lookup, PairTable.add, TreeMap.getD_insert, List.getD_eq_getElem?_getD,
    Array.getElem?_toList]
  by_cases eq : key' = key
  · subst eq
    rw [if_pos Std.ReflCmp.compare_self, Array.getElem?_modify]
    by_cases same : it = it'
    · subst same
      have inside : it < (table.getD key' (.replicate n ∅)).size := h.size_room.symm ▸ lt
      rw [if_pos rfl, ← mem_room (n := n), Array.getElem?_eq_getElem inside, Option.map_some,
        Option.getD_some, Option.getD_some, Std.TreeSet.mem_insert, Std.compare_eq_iff_eq]
      simp only [true_and, or_comm, eq_comm]
    · rw [if_neg same, mem_room]
      simp [Ne.symm same]
  · rw [if_neg fun same => eq (Std.LawfulEqOrd.eq_of_compare same).symm]
    simp [eq, Lists, lookup]

end PairTable

namespace HessianTables

variable {tables : HessianTables} {n : Nat}
  {P Q : TableKind → Nat × Nat → Nat → Nat × Nat → Prop}

theorem table_setTable (kind kind' : TableKind) (t : PairTable) :
    (tables.setTable kind t).table kind' = if kind' = kind then t else tables.table kind' := by
  rcases kind with ⟨_ | _, _ | _⟩ | _ <;> rcases kind' with ⟨_ | _, _ | _⟩ | _ <;> rfl

/-- The tables have sets for `n` iterations, with the pairs that `P` tells. -/
structure Holds (tables : HessianTables) (n : Nat)
    (P : TableKind → Nat × Nat → Nat → Nat × Nat → Prop) : Prop where
  sized (kind : TableKind) : (tables.table kind).Sized n
  lists (kind : TableKind) (key : Nat × Nat) (it : Nat) (pair : Nat × Nat) :
    (tables.table kind).Lists key it pair ↔ P kind key it pair

theorem Holds.congr (h : tables.Holds n P)
    (iff : ∀ kind key it pair, P kind key it pair ↔ Q kind key it pair) : tables.Holds n Q :=
  ⟨h.sized, fun kind key it pair => (h.lists kind key it pair).trans (iff kind key it pair)⟩

theorem holds_empty (sparsity : PairSet) :
    ({ sparsity } : HessianTables).Holds n fun _ _ _ _ => False := by
  have empty (kind : TableKind) : ({ sparsity } : HessianTables).table kind = ∅ := by
    rcases kind with ⟨_ | _, _ | _⟩ | _ <;> rfl
  refine ⟨fun kind => ?_, fun kind key it pair => ?_⟩
  · exact (empty kind).symm ▸ PairTable.sized_empty
  · exact (empty kind).symm ▸ iff_false_intro PairTable.not_lists_empty

theorem Holds.add (h : tables.Holds n P) (kind : TableKind) (key : Nat × Nat) {it : Nat}
    (lt : it < n) (pair : Nat × Nat) :
    (tables.setTable kind ((tables.table kind).add key n it pair)).Holds n
      fun kind' key' it' pair' => P kind' key' it' pair' ∨
        kind' = kind ∧ key' = key ∧ it' = it ∧ pair' = pair := by
  refine ⟨fun kind' => ?_, fun kind' key' it' pair' => ?_⟩
  all_goals rw [table_setTable]
  all_goals split
  · exact (h.sized kind).add
  · exact h.sized kind'
  · case isTrue eq => rw [(h.sized kind).lists_add lt, h.lists, eq, and_iff_right rfl]
  · case isFalse ne => rw [h.lists, or_iff_left fun same => ne same.1]

end HessianTables

/-! ## Classification -/

namespace Loop

variable {F : Type} {l : Loop F} {tables : HessianTables}
  {P : TableKind → Nat × Nat → Nat → Nat × Nat → Prop}

theorem holds_classifyAt (h : tables.Holds l.iterations P) (p q : Nat) {it : Nat}
    (lt : it < l.iterations) : (l.classifyAt p q tables it).Holds l.iterations
      fun kind key it' pair => P kind key it' pair ∨
        it' = it ∧ pair = (p, q) ∧ l.placeOf? p q it' = some (kind, key) := by
  rw [classifyAt]
  cases place : l.placeOf? p q it with
  | none =>
      refine h.congr fun kind key it' pair => (or_iff_left ?_).symm
      rintro ⟨rfl, -, found⟩
      rw [place] at found
      cases found
  | some at_ =>
      obtain ⟨kind, key⟩ := at_
      refine (h.add kind key lt (p, q)).congr fun kind' key' it' pair => or_congr_right ?_
      constructor
      · rintro ⟨rfl, rfl, rfl, rfl⟩
        exact ⟨rfl, rfl, place⟩
      · rintro ⟨rfl, rfl, found⟩
        cases place.symm.trans found
        exact ⟨rfl, rfl, rfl, rfl⟩

/-- The loop over the iterations. -/
theorem holds_foldl_classifyAt (p q : Nat) {its : List Nat} (inside : ∀ it ∈ its, it < l.iterations)
    (h : tables.Holds l.iterations P) : (its.foldl (l.classifyAt p q) tables).Holds l.iterations
      fun kind key it pair => P kind key it pair ∨
        it ∈ its ∧ pair = (p, q) ∧ l.placeOf? p q it = some (kind, key) := by
  induction its generalizing tables P with
  | nil => exact h.congr fun kind key it pair => by simp
  | cons it its ih =>
      rw [List.forall_mem_cons] at inside
      refine (ih inside.2 (holds_classifyAt h p q inside.1)).congr fun kind key it' pair => ?_
      rw [List.mem_cons, or_and_right, or_assoc]

theorem holds_classify (h : tables.Holds l.iterations P) (pair : Nat × Nat) :
    (l.classify tables pair).Holds l.iterations fun kind key it pair' =>
      P kind key it pair' ∨
        pair' = pair ∧ it < l.iterations ∧ l.placeOf? pair.1 pair.2 it = some (kind, key) := by
  refine (holds_foldl_classifyAt pair.1 pair.2 (fun it => List.mem_range.mp) h).congr
    fun kind key it pair' => or_congr_right ?_
  rw [List.mem_range, and_left_comm]

/-- The loop over the pairs. -/
theorem holds_foldl_classify (pairs : List (Nat × Nat)) (h : tables.Holds l.iterations P) :
    (pairs.foldl l.classify tables).Holds l.iterations fun kind key it pair =>
      P kind key it pair ∨
        pair ∈ pairs ∧ it < l.iterations ∧ l.placeOf? pair.1 pair.2 it = some (kind, key) := by
  induction pairs generalizing tables P with
  | nil => exact h.congr fun kind key it pair => by simp
  | cons pair pairs ih =>
      refine (ih (holds_classify h pair)).congr fun kind key it pair' => ?_
      rw [List.mem_cons, or_and_right, or_assoc]
      refine or_congr_right (or_congr_left (and_congr_right fun eq => ?_))
      rw [eq]

/-- A pair is in the tables at every iteration where it has a place. -/
theorem holds_hessianTables (l : Loop F) (sparsity : PairSet) :
    (l.hessianTables sparsity).Holds l.iterations fun kind key it pair =>
      pair ∈ sparsity ∧ it < l.iterations ∧
        l.placeOf? pair.1 pair.2 it = some (kind, key) := by
  refine (holds_foldl_classify sparsity.toList (HessianTables.holds_empty sparsity)).congr
    fun kind key it pair => ?_
  rw [false_or, Std.TreeSet.mem_toList]

end Loop

/-! ## Inputs -/

/-- The groups of the inputs of a loop tape. -/
inductive InputKind where
  | independent (indexed : Bool)
  | temporary

/-- The first inputs of the pairs in a table. -/
def TableKind.first : TableKind → InputKind
  | independents indexed₁ _ => .independent indexed₁
  | temporaryIndexed => .temporary

/-- The second inputs of the pairs in a table. -/
def TableKind.second : TableKind → InputKind
  | independents _ indexed₂ => .independent indexed₂
  | temporaryIndexed => .independent true

namespace Loop

variable {F : Type} {l : Loop F} {it p q j k : Nat}

/-- The independent or the temporary that an input reads at an iteration,
with the group of the input. -/
inductive Reads (l : Loop F) (it : Nat) : Nat → InputKind → Nat → Prop where
  | indexed {i j : Nat} {row : Array Nat} : l.indexed[i]? = some row → row[it]? = some j →
      Reads l it i (.independent true) j
  | nonIndexed {i j : Nat} : l.nonIndexed[i]? = some j →
      Reads l it (l.indexed.length + i) (.independent false) j
  | temporary {i k : Nat} : l.temporaries[i]? = some k →
      Reads l it (l.temporaryOffset + i) .temporary k

theorem reads_independent {indexed : Bool} : l.Reads it p (.independent indexed) j ↔
    l.isIndexed p = indexed ∧ l.independentAt? p it = some j := by
  rw [isIndexed, independentAt?]
  constructor
  · intro read
    cases read with
    | indexed hrow hj =>
        refine ⟨decide_eq_true (List.getElem?_eq_some_iff.mp hrow).1, ?_⟩
        rwa [hrow]
    | @nonIndexed i _ hj =>
        have past : l.indexed.length ≤ l.indexed.length + i := Nat.le_add_right ..
        refine ⟨decide_eq_false (Nat.not_lt_of_le past), ?_⟩
        rwa [List.getElem?_eq_none past, Nat.add_sub_cancel_left]
  · rintro ⟨rfl, read⟩
    split at read
    case h_1 row hrow =>
        rw [decide_eq_true (List.getElem?_eq_some_iff.mp hrow).1]
        exact .indexed hrow read
    case h_2 none =>
        have le := List.getElem?_eq_none_iff.mp none
        rw [decide_eq_false (Nat.not_lt_of_le le)]
        have at_ : l.Reads it (l.indexed.length + (p - l.indexed.length)) _ j := .nonIndexed read
        rwa [Nat.add_sub_cancel' le] at at_

theorem reads_temporary : l.Reads it p .temporary k ↔ l.temporaryOf? p = some k := by
  rw [temporaryOf?]
  constructor
  · intro read
    cases read with
    | temporary hk => rwa [if_pos (Nat.le_add_right ..), Nat.add_sub_cancel_left]
  · intro read
    split at read
    case isTrue le =>
        have at_ : l.Reads it (l.temporaryOffset + (p - l.temporaryOffset)) _ k := .temporary read
        rwa [Nat.add_sub_cancel' le] at at_
    case isFalse => cases read

theorem Reads.temporaryOffset_le (h : l.Reads it p .temporary k) : l.temporaryOffset ≤ p := by
  cases h with
  | temporary => exact Nat.le_add_right ..

theorem Reads.isTemporary_eq_false {indexed : Bool} (h : l.Reads it p (.independent indexed) j) :
    l.isTemporary p = false := by
  have before : p < l.temporaryOffset := by
    cases h with
    | indexed hrow _ => exact Nat.lt_add_right _ (List.getElem?_eq_some_iff.mp hrow).1
    | nonIndexed hj => exact Nat.add_lt_add_left (List.getElem?_eq_some_iff.mp hj).1 _
  rw [isTemporary, decide_eq_false (Nat.not_le_of_lt before), Bool.false_and]

namespace Valid

variable (valid : l.Valid)

include valid

theorem isTemporary_of_reads (h : l.Reads it p .temporary k) : l.isTemporary p = true := by
  rw [isTemporary, decide_eq_true h.temporaryOffset_le, Bool.true_and, decide_eq_true_iff]
  exact valid.temporaryInput_lt (reads_temporary.mp h)

/-- The place of a pair is told by what its inputs read. -/
theorem placeOf?_eq_some {kind : TableKind} {a b : Nat} :
    l.placeOf? p q it = some (kind, a, b) ↔
      l.Reads it p kind.first a ∧ l.Reads it q kind.second b := by
  rw [placeOf?]
  constructor
  · intro place
    -- The first input is tested for a temporary before anything else.
    split at place
    case isTrue =>
        split at place
        case h_1 k hk indexed =>
            obtain ⟨j, hj, eq⟩ := Option.map_eq_some_iff.mp place
            cases eq
            exact ⟨reads_temporary.mpr hk, reads_independent.mpr ⟨indexed, hj⟩⟩
        case h_2 => cases place
    case isFalse =>
        split at place
        case isTrue => cases place
        case isFalse =>
            split at place
            case h_1 j₁ j₂ h₁ h₂ =>
                cases place
                exact ⟨reads_independent.mpr ⟨rfl, h₁⟩, reads_independent.mpr ⟨rfl, h₂⟩⟩
            case h_2 => cases place
  · rintro ⟨first, second⟩
    cases kind with
    | independents indexed₁ indexed₂ =>
        obtain ⟨rfl, h₁⟩ := reads_independent.mp first
        obtain ⟨rfl, h₂⟩ := reads_independent.mp second
        rw [first.isTemporary_eq_false, second.isTemporary_eq_false, h₁, h₂]
        rfl
    | temporaryIndexed =>
        obtain ⟨indexed, hj⟩ := reads_independent.mp second
        rw [valid.isTemporary_of_reads first, reads_temporary.mp first, indexed, hj]
        rfl

end Valid

/-! ## Queries -/

variable {S : PairSet} {indexed₁ indexed₂ : Bool} {j₁ j₂ : Nat}

theorem Valid.mem_independentPairs (valid : l.Valid) :
    (p, q) ∈ (l.independentPairs S indexed₁ indexed₂ j₁ j₂).getD it ∅ ↔
      (p, q) ∈ S ∧ it < l.iterations ∧
        l.Reads it p (.independent indexed₁) j₁ ∧ l.Reads it q (.independent indexed₂) j₂ :=
  ((l.holds_hessianTables S).lists (.independents indexed₁ indexed₂) (j₁, j₂) it (p, q)).trans
    (and_congr_right' (and_congr_right' valid.placeOf?_eq_some))

theorem Valid.mem_temporaryPairs (valid : l.Valid) :
    (p, q) ∈ (l.temporaryPairs S k j).getD it ∅ ↔
      (p, q) ∈ S ∧ it < l.iterations ∧
        l.Reads it p .temporary k ∧ l.Reads it q (.independent true) j :=
  ((l.holds_hessianTables S).lists .temporaryIndexed (k, j) it (p, q)).trans
    (and_congr_right' (and_congr_right' valid.placeOf?_eq_some))

/-- A table of independents has the pairs of the pattern that read the
independents of their key, each in the table of its inputs; the table of
temporaries has the pairs of a temporary and an indexed input; under a key
there is a set for every iteration; and the tables of independents are
transposes of each other. -/
theorem hessianTables_exact {id iterations : Nat} {tape : Tape F}
    {dependents indexed : List (Array Nat)} {nonIndexed temporaries : List Nat}
    (made : make id tape iterations dependents indexed nonIndexed temporaries = .ok l)
    (wf : l.tape.WellFormed) : ∃ S, l.hessianSparsity = .ok S ∧
      (∀ indexed₁ indexed₂ j₁ j₂ it p q,
        (p, q) ∈ (l.independentPairs S indexed₁ indexed₂ j₁ j₂).getD it ∅ ↔
          (p, q) ∈ S ∧ it < l.iterations ∧
            l.Reads it p (.independent indexed₁) j₁ ∧ l.Reads it q (.independent indexed₂) j₂) ∧
      (∀ j₁ j₂ it p q,
        (∃ indexed₁ indexed₂, (p, q) ∈ (l.independentPairs S indexed₁ indexed₂ j₁ j₂).getD it ∅) ↔
          (p, q) ∈ S ∧ it < l.iterations ∧ l.isTemporary p = false ∧ l.isTemporary q = false ∧
            l.independentAt? p it = some j₁ ∧ l.independentAt? q it = some j₂) ∧
      (∀ indexed₁ indexed₂ j₁ j₂ it p q,
        (p, q) ∈ (l.independentPairs S indexed₁ indexed₂ j₁ j₂).getD it ∅ →
          indexed₁ = l.isIndexed p ∧ indexed₂ = l.isIndexed q) ∧
      (∀ k j it p q, (p, q) ∈ (l.temporaryPairs S k j).getD it ∅ ↔
        (p, q) ∈ S ∧ it < l.iterations ∧
          l.Reads it p .temporary k ∧ l.Reads it q (.independent true) j) ∧
      (∀ kind (key : Nat × Nat) (sets : Array PairSet),
        ((l.hessianTables S).table kind)[key]? = some sets → sets.size = l.iterations) ∧
      ∀ indexed₁ indexed₂ j₁ j₂ it p q,
        (p, q) ∈ (l.independentPairs S indexed₁ indexed₂ j₁ j₂).getD it ∅ ↔
          (q, p) ∈ (l.independentPairs S indexed₂ indexed₁ j₂ j₁).getD it ∅ := by
  have valid := valid_of_make made
  obtain ⟨S, sparsity, meets⟩ := exists_ok_of_yields wf.yields_hessianSparsity
  refine ⟨S, sparsity, fun _ _ _ _ _ _ _ => valid.mem_independentPairs,
    fun j₁ j₂ it p q => ⟨?_, ?_⟩, fun b₁ b₂ j₁ j₂ it p q mem => ?_,
    fun _ _ _ _ _ => valid.mem_temporaryPairs, (l.holds_hessianTables S).sized,
    fun b₁ b₂ j₁ j₂ it p q => ?_⟩
  · rintro ⟨b₁, b₂, mem⟩
    obtain ⟨mem, lt, first, second⟩ := valid.mem_independentPairs.mp mem
    exact ⟨mem, lt, first.isTemporary_eq_false, second.isTemporary_eq_false,
      (reads_independent.mp first).2, (reads_independent.mp second).2⟩
  · rintro ⟨mem, lt, -, -, first, second⟩
    exact ⟨_, _, valid.mem_independentPairs.mpr
      ⟨mem, lt, reads_independent.mpr ⟨rfl, first⟩, reads_independent.mpr ⟨rfl, second⟩⟩⟩
  · obtain ⟨-, -, first, second⟩ := valid.mem_independentPairs.mp mem
    exact ⟨(reads_independent.mp first).1.symm, (reads_independent.mp second).1.symm⟩
  · have symm : (p, q) ∈ S ↔ (q, p) ∈ S := by
      rw [meets, meets]
      exact ⟨Tape.Meet.symm, Tape.Meet.symm⟩
    rw [valid.mem_independentPairs, valid.mem_independentPairs, symm,
      and_comm (a := l.Reads it p _ _)]

/-- A product of two indexed inputs, a non-indexed input and a temporary.
All but the temporary read the independent 1 at iteration 1, the first does
not at iteration 0. -/
def aliased : Loop ℚ where
  id := 0
  tape := ⟨#[.input, .input, .input, .input, .binary .mul 0 (some 1), .binary .mul 4 (some 2),
    .binary .mul 5 (some 3)], 4, [6]⟩
  iterations := 2
  dependents := [#[0, 1]]
  indexed := [#[0, 1], #[1, 1]]
  nonIndexed := [1]
  temporaries := [0]
  dependentPatterns := [.linear 1 0]
  indexedPatterns := [.linear 1 0, .constant 1]

/-- The product of the indexed inputs is under `(1, 1)` at iteration 1 only,
and their products with the temporary change places. -/
theorem hessianTables_aliased :
    make aliased.id aliased.tape aliased.iterations aliased.dependents aliased.indexed
      aliased.nonIndexed aliased.temporaries = .ok aliased ∧
    aliased.tape.WellFormed ∧ ∃ S, aliased.hessianSparsity = .ok S ∧
      (0, 1) ∉ (aliased.independentPairs S true true 1 1).getD 0 ∅ ∧
      (0, 1) ∈ (aliased.independentPairs S true true 1 1).getD 1 ∅ ∧
      (3, 0) ∈ (aliased.temporaryPairs S 0 0).getD 0 ∅ ∧
      (3, 0) ∈ (aliased.temporaryPairs S 0 1).getD 1 ∅ := by
  have made : make aliased.id aliased.tape aliased.iterations aliased.dependents aliased.indexed
      aliased.nonIndexed aliased.temporaries = .ok aliased := rfl
  have wf : aliased.tape.WellFormed := of_decide_eq_true rfl
  have pattern : aliased.hessianSparsity.map (fun S => (S.contains (0, 1), S.contains (3, 0))) =
      .ok (true, true) := by
    decide +kernel
  obtain ⟨S, sparsity, independents, -, -, temporaries, -, -⟩ := hessianTables_exact made wf
  rw [sparsity] at pattern
  obtain ⟨product, scaled⟩ := Prod.mk.inj (Except.ok.inj pattern)
  refine ⟨made, wf, S, sparsity, fun mem => ?_, (independents ..).mpr ?_, (temporaries ..).mpr ?_,
    (temporaries ..).mpr ?_⟩
  · obtain ⟨-, -, first, -⟩ := (independents ..).mp mem
    exact absurd (reads_independent.mp first).2 (by decide)
  · exact ⟨Std.TreeSet.contains_iff_mem.mp product, by decide, .indexed rfl rfl, .indexed rfl rfl⟩
  · exact ⟨Std.TreeSet.contains_iff_mem.mp scaled, by decide, .temporary (i := 0) rfl,
      .indexed rfl rfl⟩
  · exact ⟨Std.TreeSet.contains_iff_mem.mp scaled, by decide, .temporary (i := 0) rfl,
      .indexed rfl rfl⟩

end Loop

end LoopDiff
