import LoopDiff.Loop.Ranges
import LoopDiff.Proofs.Maps
import Mathlib.Data.List.SplitBy

/-!
# LoopDiff.Proofs.Loop.Ranges

What the ranges of a branch select.

Among the iterations that no earlier branch has taken, the ranges of a
branch select exactly the iterations of the branch (`inRanges_branchRanges`).
A range covers part of one run of consecutive iterations, all of which are
new or taken; so it selects nothing that is neither.
-/

namespace LoopDiff

open Std (TreeMap TreeSet)

theorem inRanges_append {r : List Nat} (even : r = [] ∨ ∃ lo hi, r = [lo, hi]) (rs : List Nat)
    (i : Nat) : inRanges (r ++ rs) i = (inRanges r i || inRanges rs i) := by
  rcases even with rfl | ⟨lo, hi, rfl⟩
  · simp [inRanges]
  · simp [inRanges]

theorem runRange_even (last : Nat) (run : List (Nat × Bool)) :
    runRange last run = [] ∨ ∃ lo hi, runRange last run = [lo, hi] := by
  rw [runRange]
  split
  · split
    · exact .inr ⟨_, _, rfl⟩
    · exact .inr ⟨_, _, rfl⟩
  · exact .inl rfl

theorem inRanges_flatMap (last : Nat) (runs : List (List (Nat × Bool))) (i : Nat) :
    inRanges (runs.flatMap (runRange last)) i = true ↔
      ∃ run ∈ runs, inRanges (runRange last run) i = true := by
  induction runs with
  | nil => simp [inRanges]
  | cons run runs ih =>
      rw [List.flatMap_cons, inRanges_append (runRange_even last run), Bool.or_eq_true, ih,
        List.exists_mem_cons_iff]

/-! ## Runs -/

/-- A list of consecutive iterations. -/
def Consecutive (run : List (Nat × Bool)) : Prop := run.IsChain fun x y => y.1 = x.1 + 1

/-- A run leaves out nothing between two of its iterations. -/
theorem Consecutive.mem {run : List (Nat × Bool)} (h : Consecutive run) {e e' : Nat × Bool}
    (he : e ∈ run) (he' : e' ∈ run) {i : Nat} (lo : e.1 ≤ i) (hi : i ≤ e'.1) :
    ∃ b, (i, b) ∈ run := by
  have eq : run.map Prod.fst = List.range' ((run.map Prod.fst).headD 0) run.length := by
    clear he he' lo hi
    induction run with
    | nil => rfl
    | cons x run ih =>
        cases run with
        | nil => rfl
        | cons y run =>
            obtain ⟨step, rest⟩ := List.isChain_cons_cons.mp h
            rw [List.map_cons, ih rest, List.length_cons, List.range'_succ]
            simp [step, List.range'_succ]
  have mem (j : Nat) : j ∈ run.map Prod.fst ↔
      (run.map Prod.fst).headD 0 ≤ j ∧ j < (run.map Prod.fst).headD 0 + run.length := by
    rw [eq, List.mem_range'_1, ← eq]
  have lo' := (mem e.1).mp (List.mem_map_of_mem he)
  have hi' := (mem e'.1).mp (List.mem_map_of_mem he')
  obtain ⟨⟨j, b⟩, hj, rfl⟩ := List.mem_map.mp ((mem i).mpr ⟨by omega, by omega⟩)
  exact ⟨b, hj⟩

/-- The new iterations of a run lie between the first and the last. -/
theorem Consecutive.sorted {run : List (Nat × Bool)} (h : Consecutive run) :
    ((run.filter Prod.snd).map Prod.fst).Pairwise (· < ·) := by
  have steps : run.IsChain fun (x y : Nat × Bool) => x.1 < y.1 := h.imp fun _ _ eq => by omega
  have pairwise : run.Pairwise fun (x y : Nat × Bool) => x.1 < y.1 := by
    let lt (x y : Nat × Bool) : Prop := x.1 < y.1
    have : Trans lt lt lt := ⟨Nat.lt_trans⟩
    exact steps.pairwise
  exact List.pairwise_map.mpr (pairwise.sublist List.filter_sublist)

theorem mem_new {run : List (Nat × Bool)} {i : Nat} :
    i ∈ (run.filter Prod.snd).map Prod.fst ↔ (i, true) ∈ run := by
  constructor
  · intro h
    obtain ⟨⟨j, b⟩, hj, rfl⟩ := List.mem_map.mp h
    obtain ⟨hj, b⟩ := List.mem_filter.mp hj
    cases b
    exact hj
  · exact fun h => List.mem_map.mpr ⟨_, List.mem_filter.mpr ⟨h, rfl⟩, rfl⟩

/-- The first of ascending numbers is the least. -/
theorem le_of_head? {l : List Nat} (sorted : l.Pairwise (· < ·)) {x i : Nat}
    (hx : l.head? = some x) (hi : i ∈ l) : x ≤ i := by
  obtain ⟨rest, rfl⟩ := List.head?_eq_some_iff.mp hx
  rcases List.mem_cons.mp hi with rfl | hi
  · exact le_rfl
  · exact Nat.le_of_lt (List.rel_of_pairwise_cons sorted hi)

/-- A new iteration is in the range of its run. -/
theorem inRanges_runRange_of_mem {run : List (Nat × Bool)} (h : Consecutive run) (last : Nat)
    {i : Nat} (hi : (i, true) ∈ run) : inRanges (runRange last run) i = true := by
  have mem := mem_new.mpr hi
  have sorted := h.sorted
  rw [runRange]
  generalize (run.filter Prod.snd).map Prod.fst = new at mem sorted
  have ne : new ≠ [] := List.ne_nil_of_mem mem
  rw [List.head?_eq_some_head ne, List.getLast?_eq_some_getLast ne]
  have first : new.head ne ≤ i := le_of_head? sorted (List.head?_eq_some_head ne) mem
  have final : i ≤ new.getLast ne := by
    obtain ⟨init, x, rfl⟩ := (List.eq_nil_or_concat' new).resolve_left ne
    rw [List.getLast_concat]
    rcases List.mem_append.mp mem with mem | mem
    · exact Nat.le_of_lt ((List.pairwise_append.mp sorted).2.2 i mem x (List.mem_singleton.mpr rfl))
    · exact (List.mem_singleton.mp mem).le
  simp only
  split
  case isTrue => simp [inRanges, first, final]
  case isFalse =>
      have zero : (if run.head?.map Prod.fst = some 0 then 0 else new.head ne) ≤ i := by
        split
        · exact Nat.zero_le _
        · exact first
      simp only [inRanges, Bool.or_false, Bool.and_eq_true, decide_eq_true_eq, Bool.or_eq_true,
        beq_iff_eq]
      refine ⟨zero, ?_⟩
      split
      · exact .inl rfl
      · exact .inr final

/-- The range of a run selects iterations of the run only. -/
theorem mem_of_inRanges_runRange {run : List (Nat × Bool)} (h : Consecutive run) {last : Nat}
    (small : last < openEnd) (below : ∀ e ∈ run, e.1 ≤ last) {i : Nat} (hi : i ≤ last)
    (sel : inRanges (runRange last run) i = true) : ∃ b, (i, b) ∈ run := by
  rw [runRange] at sel
  split at sel
  case h_2 => simp [inRanges] at sel
  case h_1 lo hi' hlo hhi =>
      have lo_mem : (lo, true) ∈ run := mem_new.mp (List.mem_of_head? hlo)
      have hi_mem : (hi', true) ∈ run := mem_new.mp (List.mem_of_getLast? hhi)
      have closed : hi' ≠ openEnd := by
        have : hi' ≤ last := below _ hi_mem
        omega
      split at sel
      case isTrue eq =>
          simp only [inRanges, Bool.or_false, Bool.and_eq_true, decide_eq_true_eq,
            Bool.or_eq_true, beq_iff_eq, closed, false_or] at sel
          exact h.mem lo_mem hi_mem sel.1 sel.2
      case isFalse =>
          simp only [inRanges, Bool.or_false, Bool.and_eq_true, decide_eq_true_eq,
            Bool.or_eq_true, beq_iff_eq] at sel
          obtain ⟨from_, until_⟩ := sel
          have lower : ∃ e ∈ run, e.1 ≤ i := by
            split at from_
            case isTrue zero =>
                obtain ⟨e, he, eq⟩ := Option.map_eq_some_iff.mp zero
                exact ⟨e, List.mem_of_head? he, eq ▸ Nat.zero_le _⟩
            case isFalse => exact ⟨_, lo_mem, from_⟩
          have upper : ∃ e ∈ run, i ≤ e.1 := by
            split at until_
            case isTrue reaches =>
                obtain ⟨e, he, eq⟩ := Option.map_eq_some_iff.mp reaches
                exact ⟨e, List.mem_of_getLast? he, eq ▸ hi⟩
            case isFalse => exact ⟨_, hi_mem, until_.resolve_left closed⟩
          obtain ⟨e, he, le⟩ := lower
          obtain ⟨e', he', le'⟩ := upper
          exact h.mem he he' le le'

/-! ## Branches -/

theorem mem_markedIterations {iterations taken : IndexSet} {i : Nat} {b : Bool} :
    (i, b) ∈ markedIterations iterations taken ↔
      b = true ∧ i ∈ iterations ∨ b = false ∧ i ∈ taken ∧ i ∉ iterations := by
  have inserted (l : List Nat) (m : TreeMap Nat Bool) :
      (l.foldl (fun all i => all.insert i true) m)[i]? = if i ∈ l then some true else m[i]? := by
    induction l generalizing m with
    | nil => simp
    | cons j l ih =>
        rw [List.foldl_cons, ih, TreeMap.getElem?_insert]
        by_cases hl : i ∈ l
        · simp [hl]
        · by_cases eq : j = i
          · simp [eq]
          · have : ¬compare j i = .eq := mt Nat.compare_eq_eq.mp eq
            simp [hl, this, Ne.symm eq]
  have marked : (TreeMap.ofList (taken.toList.map fun i => (i, false)))[i]? =
      if i ∈ taken then some false else none := by
    have nodup : ((taken.toList.map fun i => (i, false)).map Prod.fst).Nodup := by
      rw [List.map_map]
      exact (List.map_id _).symm ▸ nodup_toList taken
    ext b
    rw [getElem?_ofList nodup, List.mem_map]
    simp [eq_comm]
  rw [markedIterations, TreeMap.mem_toList_iff_getElem?_eq_some, inserted, marked]
  simp only [TreeSet.mem_toList]
  by_cases new : i ∈ iterations
  · simp [new, eq_comm]
  · by_cases old : i ∈ taken <;> simp [new, old, eq_comm]

section

variable {iterations taken : IndexSet} {last : Nat}

theorem consecutive_of_mem {run : List (Nat × Bool)}
    (h : run ∈ consecutiveRuns (markedIterations iterations taken)) : Consecutive run :=
  (List.isChain_of_mem_splitBy h).imp fun _ _ eq => by simpa using eq

/-- The runs have the iterations of the branch and those taken, and no others. -/
theorem exists_run_iff {e : Nat × Bool} :
    (∃ run ∈ consecutiveRuns (markedIterations iterations taken), e ∈ run) ↔
      e ∈ markedIterations iterations taken := by
  rw [← List.mem_flatten, consecutiveRuns, List.flatten_splitBy]

theorem le_of_mem_run (below : ∀ i, i ∈ iterations ∨ i ∈ taken → i ≤ last)
    {run : List (Nat × Bool)} (h : run ∈ consecutiveRuns (markedIterations iterations taken))
    {e : Nat × Bool} (he : e ∈ run) : e.1 ≤ last := by
  rcases mem_markedIterations.mp (exists_run_iff.mp ⟨run, h, he⟩) with ⟨-, new⟩ | ⟨-, old, -⟩
  · exact below _ (.inl new)
  · exact below _ (.inr old)

/-- Among the iterations that are not taken, the ranges of a branch select
those of the branch. -/
theorem inRanges_branchRanges (small : last < openEnd)
    (below : ∀ i, i ∈ iterations ∨ i ∈ taken → i ≤ last) {i : Nat} (hi : i ≤ last)
    (free : i ∉ taken) :
    inRanges (branchRanges iterations taken last) i = true ↔ i ∈ iterations := by
  rw [branchRanges, inRanges_flatMap]
  constructor
  · rintro ⟨run, hrun, sel⟩
    obtain ⟨b, hb⟩ := mem_of_inRanges_runRange (consecutive_of_mem hrun) small
      (fun _ => le_of_mem_run below hrun) hi sel
    rcases mem_markedIterations.mp (exists_run_iff.mp ⟨run, hrun, hb⟩) with ⟨-, mem⟩ | ⟨-, mem, -⟩
    · exact mem
    · exact absurd mem free
  · intro mem
    obtain ⟨run, hrun, hi⟩ := exists_run_iff.mpr (mem_markedIterations.mpr (.inl ⟨rfl, mem⟩))
    exact ⟨run, hrun, inRanges_runRange_of_mem (consecutive_of_mem hrun) last hi⟩

end

end LoopDiff
