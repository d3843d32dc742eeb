import LoopDiff.Loop.Scope
import LoopDiff.Proofs.Loop.Ranges
import Mathlib.Algebra.Group.Nat.Even

/-!
# LoopDiff.Proofs.Loop.Selection

The ranges of a branch, and the branch that they select.

The ranges of a branch come in pairs of bounds, in ascending order, and no
two of them have an iteration in common (`Tidy`).  Each range is made from a
run of consecutive iterations and stays inside of it, but for the one that is
left open: its run reaches the last iteration, so no range follows.

The branches of a conditional are tested in order, and what is in an earlier
branch is taken (`branchConditions`).  The first branch whose ranges an
iteration lies in is the branch that the iteration belongs to.
-/

namespace LoopDiff

open Std (TreeMap TreeSet)

/-! ## Bounds -/

/-- The bounds of ranges, two by two. -/
def bounds : List Nat → List (Nat × Nat)
  | lo :: hi :: rest => (lo, hi) :: bounds rest
  | _ => []

/-- Ranges in order: pairs of bounds, the lower one first unless the range is
open, each range after the one before and apart from all others. -/
structure Tidy (ranges : List Nat) : Prop where
  even : Even ranges.length
  bounded : ∀ r ∈ bounds ranges, r.2 ≠ openEnd → r.1 ≤ r.2
  ascending : (bounds ranges).Pairwise fun r s => r.2 < s.1
  disjoint : (bounds ranges).Pairwise fun r s =>
    ∀ i, ¬(inRanges [r.1, r.2] i = true ∧ inRanges [s.1, s.2] i = true)

theorem bounds_flatMap (last : Nat) (runs : List (List (Nat × Bool))) :
    bounds (runs.flatMap (runRange last)) = runs.flatMap fun run => bounds (runRange last run) := by
  induction runs with
  | nil => rfl
  | cons run runs ih =>
      rw [List.flatMap_cons, List.flatMap_cons, ← ih]
      rcases runRange_even last run with eq | ⟨lo, hi, eq⟩ <;> rw [eq] <;> rfl

theorem even_length_flatMap (last : Nat) (runs : List (List (Nat × Bool))) :
    Even (runs.flatMap (runRange last)).length := by
  induction runs with
  | nil => exact .zero
  | cons run runs ih =>
      rw [List.flatMap_cons, List.length_append]
      refine Even.add ?_ ih
      rcases runRange_even last run with eq | ⟨lo, hi, eq⟩ <;> rw [eq]
      · exact .zero
      · exact ⟨1, rfl⟩

/-! ## The range of a run -/

/-- The range of a run starts at an iteration of the run.  It ends at one that
is not before, or it is open and the run has the last iteration. -/
theorem bounds_runRange {run : List (Nat × Bool)} (h : Consecutive run) {last : Nat}
    {r : Nat × Nat} (hr : r ∈ bounds (runRange last run)) :
    (∃ e ∈ run, e.1 = r.1) ∧ ((∃ e ∈ run, e.1 = last) ∧ r.2 = openEnd ∨
      (∃ e ∈ run, e.1 = r.2) ∧ r.1 ≤ r.2) := by
  rw [runRange] at hr
  split at hr
  case h_2 => exact absurd hr List.not_mem_nil
  case h_1 lo hi hlo hhi =>
      have hi_new := List.mem_of_getLast? hhi
      have starts : ∃ e ∈ run, e.1 = lo := ⟨_, mem_new.mp (List.mem_of_head? hlo), rfl⟩
      have ends : ∃ e ∈ run, e.1 = hi := ⟨_, mem_new.mp hi_new, rfl⟩
      have le : lo ≤ hi := le_of_head? h.sorted hlo hi_new
      split at hr <;> cases List.mem_singleton.mp hr
      case isTrue => exact ⟨starts, .inr ⟨ends, le⟩⟩
      case isFalse =>
          dsimp only
          have lower : (∃ e ∈ run, e.1 = if run.head?.map Prod.fst = some 0 then 0 else lo) ∧
              (if run.head?.map Prod.fst = some 0 then 0 else lo) ≤ hi := by
            split
            case isTrue zero =>
                obtain ⟨e, he, eq⟩ := Option.map_eq_some_iff.mp zero
                exact ⟨⟨e, List.mem_of_head? he, eq⟩, Nat.zero_le _⟩
            case isFalse => exact ⟨starts, le⟩
          refine ⟨lower.1, ?_⟩
          split
          case isTrue reaches =>
              obtain ⟨e, he, eq⟩ := Option.map_eq_some_iff.mp reaches
              exact .inl ⟨⟨e, List.mem_of_getLast? he, eq⟩, rfl⟩
          case isFalse => exact .inr ⟨ends, lower.2⟩

/-- Runs follow one another. -/
theorem pairwise_consecutiveRuns (iterations taken : IndexSet) :
    (consecutiveRuns (markedIterations iterations taken)).Pairwise fun run run' =>
      ∀ e ∈ run, ∀ e' ∈ run', e.1 < e'.1 := by
  have sorted : (markedIterations iterations taken).Pairwise fun e e' => e.1 < e'.1 :=
    TreeMap.ordered_keys_toList.imp fun h => Nat.compare_eq_lt.mp h
  have flat := List.flatten_splitBy (fun (x y : Nat × Bool) => y.1 == x.1 + 1)
    (markedIterations iterations taken)
  rw [← flat] at sorted
  exact (List.pairwise_flatten.mp sorted).2

/-! ## The ranges of a branch -/

section

variable {iterations taken : IndexSet} {last : Nat}

/-- A range of a branch is made from a run. -/
theorem exists_run_of_bounds {r : Nat × Nat} (hr : r ∈ bounds (branchRanges iterations taken last)) :
    ∃ run ∈ consecutiveRuns (markedIterations iterations taken),
      r ∈ bounds (runRange last run) := by
  rw [branchRanges, bounds_flatMap] at hr
  exact List.mem_flatMap.mp hr

theorem ascending_branchRanges (below : ∀ i, i ∈ iterations ∨ i ∈ taken → i ≤ last) :
    (bounds (branchRanges iterations taken last)).Pairwise fun r s => r.2 < s.1 := by
  rw [branchRanges, bounds_flatMap, List.pairwise_flatMap]
  constructor
  · intro run _
    rcases runRange_even last run with eq | ⟨lo, hi, eq⟩ <;> rw [eq]
    · exact .nil
    · exact List.pairwise_singleton _ _
  · refine (pairwise_consecutiveRuns iterations taken).imp_of_mem ?_
    intro run run' hrun hrun' before r hr s hs
    obtain ⟨⟨start, hstart, start_eq⟩, -⟩ := bounds_runRange (consecutive_of_mem hrun') hs
    have inside := le_of_mem_run below hrun' hstart
    rcases (bounds_runRange (consecutive_of_mem hrun) hr).2 with ⟨⟨e, he, eq⟩, -⟩ | ⟨⟨e, he, eq⟩, -⟩
    · -- nothing comes after a run that has the last iteration
      have := before e he start hstart
      omega
    · exact eq ▸ start_eq ▸ before e he start hstart

theorem tidy_branchRanges (small : last < openEnd)
    (below : ∀ i, i ∈ iterations ∨ i ∈ taken → i ≤ last) :
    Tidy (branchRanges iterations taken last) := by
  have ascending := ascending_branchRanges below
  refine ⟨even_length_flatMap last _, fun r hr closed => ?_, ascending, ?_⟩
  · obtain ⟨run, hrun, hr⟩ := exists_run_of_bounds hr
    rcases (bounds_runRange (consecutive_of_mem hrun) hr).2 with ⟨-, unbounded⟩ | ⟨-, le⟩
    · exact absurd unbounded closed
    · exact le
  · refine ascending.imp_of_mem fun {r s} _ hs lt i => ?_
    obtain ⟨run, hrun, hs⟩ := exists_run_of_bounds hs
    obtain ⟨⟨start, hstart, start_eq⟩, -⟩ := bounds_runRange (consecutive_of_mem hrun) hs
    have inside := le_of_mem_run below hrun hstart
    simp only [inRanges, Bool.or_false, Bool.and_eq_true, decide_eq_true_eq, Bool.or_eq_true,
      beq_iff_eq]
    omega

end

/-! ## Branches in order -/

/-- The ranges of each branch of a conditional, by which the branches are told
apart: what is in an earlier branch is taken. -/
def branchConditions (last : Nat) : IndexSet → Partition → List (List Nat)
  | _, [] => []
  | taken, iterations :: rest =>
    branchRanges (TreeSet.ofList iterations) taken last ::
      branchConditions last (taken.insertMany iterations) rest

/-- The first branch whose ranges hold an iteration is the first that has it. -/
theorem findIdx?_branchConditions {last : Nat} (small : last < openEnd) {partition : Partition}
    {taken : IndexSet} (below : ∀ i ∈ taken, i ≤ last)
    (inside : ∀ l ∈ partition, ∀ i ∈ l, i ≤ last) {i : Nat} (hi : i ≤ last) (free : i ∉ taken) :
    (branchConditions last taken partition).findIdx? (inRanges · i) =
      partition.findIdx? (i ∈ ·) := by
  induction partition generalizing taken with
  | nil => rfl
  | cons iterations rest ih =>
      have here := inside iterations (List.mem_cons_self ..)
      have selects : inRanges (branchRanges (TreeSet.ofList iterations) taken last) i =
          decide (i ∈ iterations) := by
        rw [Bool.eq_iff_iff, inRanges_branchRanges small ?_ hi free, decide_eq_true_iff]
        · simp [TreeSet.mem_ofList]
        · rintro j (new | old)
          · exact here j (by simpa [TreeSet.mem_ofList] using new)
          · exact below j old
      rw [branchConditions, List.findIdx?_cons, List.findIdx?_cons, selects]
      by_cases mem : i ∈ iterations
      · simp [mem]
      · have later (j : Nat) : j ∈ taken.insertMany iterations ↔ j ∈ taken ∨ j ∈ iterations := by
          simp [TreeSet.mem_insertMany_list]
        rw [ih ?_ (fun l hl => inside l (List.mem_cons_of_mem _ hl)) ?_]
        · exact fun j hj => ((later j).mp hj).elim (below j) (here j)
        · exact fun hi => ((later i).mp hi).elim free mem

/-- At most one of disjoint lists has an element. -/
theorem findIdx?_mem_of_disjoint {partition : Partition}
    (disjoint : partition.Pairwise List.Disjoint) {i k : Nat} :
    partition.findIdx? (i ∈ ·) = some k ↔ ∃ l, partition[k]? = some l ∧ i ∈ l := by
  rw [List.findIdx?_eq_some_iff_getElem]
  constructor
  · rintro ⟨lt, mem, -⟩
    exact ⟨_, List.getElem?_eq_getElem lt, by simpa using mem⟩
  · rintro ⟨l, hl, mem⟩
    obtain ⟨lt, rfl⟩ := List.getElem?_eq_some_iff.mp hl
    refine ⟨lt, by simpa using mem, fun j hj other => ?_⟩
    exact List.pairwise_iff_getElem.mp disjoint j k _ lt hj (by simpa using other) mem

/-- The ranges of a branch are in order, and among the iterations that are not
taken they select those of the branch.  So of branches that have no iteration
in common, tested one after another, each iteration is given to the one that
has it, and to none if there is none. -/
theorem branchRanges_exact {last : Nat} (small : last < openEnd) :
    (∀ iterations taken : IndexSet, (∀ i ∈ iterations, i ≤ last) → (∀ i ∈ taken, i ≤ last) →
      Tidy (branchRanges iterations taken last) ∧
      ∀ i ≤ last, i ∉ taken →
        (inRanges (branchRanges iterations taken last) i = true ↔ i ∈ iterations)) ∧
    ∀ partition : Partition, (∀ l ∈ partition, ∀ i ∈ l, i ≤ last) →
      partition.Pairwise List.Disjoint → ∀ i ≤ last, ∀ k,
        ((branchConditions last ∅ partition).findIdx? (inRanges · i) = some k ↔
          ∃ l, partition[k]? = some l ∧ i ∈ l) := by
  constructor
  · intro iterations taken new old
    have below (i : Nat) (h : i ∈ iterations ∨ i ∈ taken) : i ≤ last := h.elim (new i) (old i)
    exact ⟨tidy_branchRanges small below, fun i hi free => inRanges_branchRanges small below hi free⟩
  · intro partition inside disjoint i hi k
    rw [findIdx?_branchConditions small (by simp) inside hi (by simp)]
    exact findIdx?_mem_of_disjoint disjoint

/-- Three branches of a loop over six iterations.  The last of them takes what is
left with a single open range, which also covers what the others have taken. -/
theorem branchRanges_widened : 5 < openEnd ∧
    branchConditions 5 ∅ [[3], [1, 2], [0, 4, 5]] = [[3, 3], [1, 2], [0, openEnd]] ∧
    [[3, 3], [1, 2], [0, openEnd]].findIdx? (inRanges · 4) = some 2 ∧
    [[3, 3], [1, 2], [0, openEnd]].findIdx? (inRanges · 2) = some 1 ∧
    branchRanges (TreeSet.ofList [0, 4, 5]) (TreeSet.ofList [1, 2, 3]) 5 = [0, openEnd] ∧
    Tidy [0, openEnd] ∧
    (inRanges [0, openEnd] 4 = true ↔ 4 ∈ (TreeSet.ofList [0, 4, 5] : IndexSet)) := by
  have conditions : branchConditions 5 ∅ [[3], [1, 2], [0, 4, 5]] =
      [[3, 3], [1, 2], [0, openEnd]] := by decide +kernel
  have ranges : branchRanges (TreeSet.ofList [0, 4, 5]) (TreeSet.ofList [1, 2, 3]) 5 =
      [0, openEnd] := by decide +kernel
  have small : 5 < openEnd := by decide
  obtain ⟨branch, branches⟩ := branchRanges_exact small
  have select := branches [[3], [1, 2], [0, 4, 5]] (by decide) (by simp [List.Disjoint])
  obtain ⟨tidy, exact_⟩ := branch (TreeSet.ofList [0, 4, 5]) (TreeSet.ofList [1, 2, 3])
    (by simp [TreeSet.mem_ofList]) (by simp [TreeSet.mem_ofList])
  rw [conditions] at select
  rw [ranges] at tidy exact_
  exact ⟨small, conditions, (select 4 (by decide) 2).mpr ⟨_, rfl, by decide⟩,
    (select 2 (by decide) 1).mpr ⟨_, rfl, by decide⟩, ranges, tidy,
    exact_ 4 (by decide) (by simp [TreeSet.mem_ofList])⟩

end LoopDiff
