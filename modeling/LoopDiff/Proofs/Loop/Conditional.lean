import LoopDiff.Loop.Scope
import LoopDiff.Proofs.Graph.Execution
import LoopDiff.Proofs.Graph.Search
import LoopDiff.Proofs.Maps

/-!
# LoopDiff.Proofs.Loop.Conditional

Conditionals in an arena, and what evaluation makes of them.

`Arena.Branches` describes the branches of a conditional node by node: the
node that starts a branch has the results of the branch before among its
arguments, and every result names its branch and a write.  With the end of
the conditional, which has the results of the last branch, this makes an
`Arena.Conditional`.

The chain that evaluation collects from the end of a conditional lists its
branches with all of their results (`collectChain_eq`), and at an iteration
the results of the branch that the iteration belongs to are taken
(`taken_eq`).
-/

namespace LoopDiff

open Std (TreeMap)

variable {F : Type}

/-! ## Branches -/

/-- The arguments with which the node of a branch begins, and the iterations
at which its condition holds. -/
inductive Arena.Guard (a : Arena F) (start : NodeRef) :
    Kind → List (Value F) → (Nat → Bool) → Prop
  | startIf {c : NodeRef} {n : Node F} : a.node c = .ok n → n.kind = .condition →
      Guard a start .startIf [.node c] (inRanges n.info)
  | elseIf {c : NodeRef} {n : Node F} : a.node c = .ok n → n.kind = .condition →
      Guard a start .elseIf [.node start, .node c] (inRanges n.info)
  | otherwise : Guard a start .otherwise [.node start] fun _ => true

/-- The results of the branch before the branch `k`. -/
def previous (results : List (List NodeRef)) : Nat → List NodeRef
  | 0 => []
  | k + 1 => results.getD k []

/-- Whether no branch before the branch `k` has an iteration. -/
def FreeBefore (bs : List Branch) (k it : Nat) : Prop :=
  ∀ j b, j < k → bs[j]? = some b → it ∉ b.iterations

/-- The branches of a conditional over the first `n` iterations, with their
results. -/
structure Arena.Branches (a : Arena F) (n : Nat) (bs : List Branch)
    (results : List (List NodeRef)) : Prop where
  length_eq : results.length = bs.length
  branch {k : Nat} {b : Branch} : bs[k]? = some b → ∃ m pre test start, a.node b.node = .ok m ∧
    (bs.head?.map Branch.node = some start) ∧ a.Guard start m.kind pre test ∧
    m.args = pre ++ (previous results k).map .node ∧
    ∀ it < n, FreeBefore bs k it → (test it = true ↔ it ∈ b.iterations)
  result {k : Nat} {b : Branch} {l : List NodeRef} : bs[k]? = some b → results[k]? = some l →
    ∀ r ∈ l, ∃ m w, a.node r = .ok m ∧ m.kind = .branchResult ∧
      m.args = [.node b.node, .node w] ∧ ∃ mw, a.node w = .ok mw ∧ mw.kind = .indexedWrite
  nonempty {k : Nat} {l : List NodeRef} : results[k]? = some l → l ≠ []
  ascending : bs.Pairwise fun b b' => b.node.index < b'.node.index
  sorted {k : Nat} {l : List NodeRef} : results[k]? = some l →
    l.Pairwise fun r r' => r.index < r'.index

/-- A conditional, given by its skeleton, with the results of its branches. -/
structure Arena.Conditional (a : Arena F) (n : Nat) (sk : Skeleton)
    (results : List (List NodeRef)) : Prop extends a.Branches n sk.branches results where
  inhabited : sk.branches ≠ []
  endIf : ∃ m, a.node sk.endIf = .ok m ∧ m.kind = .endIf ∧
    m.args = (previous results results.length).map .node

namespace Arena

variable {a : Arena F} {n : Nat} {bs : List Branch} {results : List (List NodeRef)}

theorem Branches.getElem?_results (h : a.Branches n bs results) {k : Nat} {b : Branch}
    (hb : bs[k]? = some b) : ∃ l, results[k]? = some l := by
  have lt := (List.getElem?_eq_some_iff.mp hb).1
  rw [← h.length_eq] at lt
  exact ⟨_, List.getElem?_eq_getElem lt⟩

theorem Branches.getElem?_branches (h : a.Branches n bs results) {k : Nat} {l : List NodeRef}
    (hl : results[k]? = some l) : ∃ b, bs[k]? = some b := by
  have lt := (List.getElem?_eq_some_iff.mp hl).1
  rw [h.length_eq] at lt
  exact ⟨_, List.getElem?_eq_getElem lt⟩

/-- Later branches have later nodes. -/
theorem Branches.index_lt (h : a.Branches n bs results) {j k : Nat} {b b' : Branch} (lt : j < k)
    (hb : bs[j]? = some b) (hb' : bs[k]? = some b') : b.node.index < b'.node.index := by
  obtain ⟨hj, rfl⟩ := List.getElem?_eq_some_iff.mp hb
  obtain ⟨hk, rfl⟩ := List.getElem?_eq_some_iff.mp hb'
  exact List.pairwise_iff_getElem.mp h.ascending j k hj hk lt

theorem Branches.eq_of_index_eq (h : a.Branches n bs results) {j k : Nat} {b b' : Branch}
    (hb : bs[j]? = some b) (hb' : bs[k]? = some b') (eq : b.node.index = b'.node.index) :
    j = k := by
  rcases Nat.lt_trichotomy j k with lt | eq' | lt
  · exact absurd (h.index_lt lt hb hb') (by omega)
  · exact eq'
  · exact absurd (h.index_lt lt hb' hb) (by omega)

theorem Guard.isBranch {start : NodeRef} {kind : Kind} {pre : List (Value F)} {test : Nat → Bool}
    (h : a.Guard start kind pre test) : kind = .startIf ∨ kind = .elseIf ∨ kind = .otherwise := by
  cases h <;> simp

theorem Guard.tier {start : NodeRef} {kind : Kind} {pre : List (Value F)} {test : Nat → Bool}
    (h : a.Guard start kind pre test) : kind.tier = 1 := by
  cases h <;> rfl

/-- The nodes that a guard names are a condition and the first branch. -/
theorem Guard.args {start : NodeRef} {kind : Kind} {pre : List (Value F)} {test : Nat → Bool}
    (h : a.Guard start kind pre test) {r : NodeRef} (hr : .node r ∈ pre) :
    r = start ∨ ∃ m, a.node r = .ok m ∧ m.kind = .condition := by
  cases h with
  | startIf hc kind =>
      cases Value.node.inj (List.mem_singleton.mp hr)
      exact .inr ⟨_, hc, kind⟩
  | elseIf hc kind =>
      rcases List.mem_cons.mp hr with eq | hr
      · exact .inl (Value.node.inj eq)
      · cases Value.node.inj (List.mem_singleton.mp hr)
        exact .inr ⟨_, hc, kind⟩
  | otherwise => exact .inl (Value.node.inj (List.mem_singleton.mp hr))

/-- The first branch starts with a branch node. -/
theorem Branches.start_kind (h : a.Branches n bs results) {start : NodeRef}
    (hstart : bs.head?.map Branch.node = some start) :
    ∃ m, a.node start = .ok m ∧ m.kind ≠ .branchResult := by
  rw [List.head?_eq_getElem?, Option.map_eq_some_iff] at hstart
  obtain ⟨b, hb, rfl⟩ := hstart
  obtain ⟨m, _, _, _, hm, -, guard, -⟩ := h.branch hb
  refine ⟨m, hm, ?_⟩
  rcases guard.isBranch with kind | kind | kind <;> simp [kind]

/-- Conditional results are what they should be. -/
theorem Branches.previous_kind (h : a.Branches n bs results) {k : Nat} {r : NodeRef}
    (hr : r ∈ previous results k) : ∃ m, a.node r = .ok m ∧ m.kind = .branchResult := by
  cases k with
  | zero => cases hr
  | succ k =>
      rw [previous, List.getD_eq_getElem?_getD] at hr
      cases hl : results[k]? with
      | none =>
          rw [hl] at hr
          cases hr
      | some l =>
          rw [hl] at hr
          obtain ⟨b, hb⟩ := h.getElem?_branches hl
          obtain ⟨m, -, hm, kind, -⟩ := h.result hb hl r hr
          exact ⟨m, hm, kind⟩

end Arena

/-! ## Evaluation -/

namespace Problem

variable {p : Problem F} {n : Nat} {bs : List Branch} {results : List (List NodeRef)}

open Arena

/-- The condition of a branch. -/
theorem holds_eq (h : p.arena.Branches n bs results) {k : Nat} {b : Branch}
    (hb : bs[k]? = some b) {it : Nat} (hit : it < n) (free : FreeBefore bs k it) :
    p.holds b.node it = .ok (decide (it ∈ b.iterations)) := by
  obtain ⟨m, pre, test, start, hm, -, guard, args, sel⟩ := h.branch hb
  have eq : decide (it ∈ b.iterations) = test it := by
    rw [Bool.eq_iff_iff, decide_eq_true_eq]
    exact (sel it hit free).symm
  rw [eq, holds, hm]
  generalize hkind : m.kind = kind at guard
  cases guard with
  | startIf hc _ =>
      simp only [Bind.bind, Except.bind, hkind, args, List.cons_append, List.getElem?_cons_zero,
        present, pure, Except.pure, hc]
  | elseIf hc _ =>
      simp only [Bind.bind, Except.bind, hkind, args, List.cons_append, List.getElem?_cons_succ,
        List.getElem?_cons_zero, present, pure, Except.pure, hc]
  | otherwise => simp only [Bind.bind, Except.bind, hkind, pure, Except.pure]

/-- The branches of a conditional with their results. -/
def listed (bs : List Branch) (results : List (List NodeRef)) : Chain :=
  (bs.zip results).map fun (b, l) => (b.node, l)

theorem getElem?_listed {k : Nat} {b : Branch} {l : List NodeRef} (hb : bs[k]? = some b)
    (hl : results[k]? = some l) : (listed bs results)[k]? = some (b.node, l) := by
  have pair : (bs.zip results)[k]? = some (b, l) := List.getElem?_zip_eq_some.mpr ⟨hb, hl⟩
  rw [listed, List.getElem?_map, pair]
  rfl

/-- Branches whose conditions do not hold are passed over. -/
theorem taken_drop (h : p.arena.Branches n bs results) {it : Nat} (hit : it < n) {k : Nat}
    (le : k ≤ bs.length) (free : FreeBefore bs k it) :
    p.taken it (listed bs results) = p.taken it ((listed bs results).drop k) := by
  induction k with
  | zero => rfl
  | succ k ih =>
      have hb := List.getElem?_eq_getElem (show k < bs.length by omega)
      obtain ⟨l, hl⟩ := h.getElem?_results hb
      have free' : FreeBefore bs k it := fun j b lt => free j b (by omega)
      obtain ⟨lt, eq⟩ := List.getElem?_eq_some_iff.mp (getElem?_listed hb hl)
      rw [ih (by omega) free', List.drop_eq_getElem_cons lt, eq, taken, holds_eq h hb hit free',
        decide_eq_false (free k _ (by omega) hb)]
      rfl

/-- The results of the branch that an iteration belongs to are taken. -/
theorem taken_eq (h : p.arena.Branches n bs results) {k : Nat} {b : Branch} {l : List NodeRef}
    (hb : bs[k]? = some b) (hl : results[k]? = some l) {it : Nat} (hit : it < n)
    (free : FreeBefore bs k it) (mem : it ∈ b.iterations) :
    p.taken it (listed bs results) = .ok l := by
  have le := Nat.le_of_lt (List.getElem?_eq_some_iff.mp hb).1
  obtain ⟨lt, eq⟩ := List.getElem?_eq_some_iff.mp (getElem?_listed hb hl)
  rw [taken_drop h hit le free, List.drop_eq_getElem_cons lt, eq, taken,
    holds_eq h hb hit free, decide_eq_true mem]
  rfl

/-- At an iteration that belongs to no branch, nothing is taken. -/
theorem taken_eq_nil (h : p.arena.Branches n bs results) {it : Nat} (hit : it < n)
    (free : FreeBefore bs bs.length it) : p.taken it (listed bs results) = .ok [] := by
  rw [taken_drop h hit le_rfl free, List.drop_of_length_le]
  · rfl
  · simp [listed, h.length_eq]

/-- Whether a node is a conditional result. -/
def isResult (p : Problem F) (r : NodeRef) : Bool :=
  (p.arena.nodes[r.index]?).any fun n => n.kind = .branchResult

theorem isResult_eq {r : NodeRef} {m : Node F} (h : p.arena.node r = .ok m) :
    (do return decide ((← p.arena.node r).kind = .branchResult) : Except Failure Bool) =
        .ok (p.isResult r) ∧
      p.isResult r = decide (m.kind = .branchResult) := by
  rw [h, isResult, (node_eq_ok_iff.mp h).2]
  exact ⟨rfl, rfl⟩

/-- The results that come before a result are those of the branch before. -/
theorem earlierResults_eq (h : p.arena.Branches n bs results) {k : Nat} {b : Branch}
    {l : List NodeRef} (hb : bs[k]? = some b) (hl : results[k]? = some l) {r : NodeRef}
    (hr : r ∈ l) :
    p.earlierResults r.index = .ok ((previous results k).map NodeRef.index) := by
  obtain ⟨m, w, hm, kind, args, -⟩ := h.result hb hl r hr
  obtain ⟨mb, pre, test, start, hmb, hstart, guard, argsb, -⟩ := h.branch hb
  -- the arguments of the branch are those of its guard, none of them a result,
  -- and the results of the branch before
  have fromPre (s : NodeRef) (hs : s ∈ pre.filterMap Value.node?) :
      ∃ m, p.arena.node s = .ok m ∧ m.kind ≠ .branchResult := by
    rcases guard.args (Value.mem_nodes.mp hs) with rfl | ⟨m, hm, kind⟩
    · exact h.start_kind hstart
    · exact ⟨m, hm, by simp [kind]⟩
  have split : mb.args.filterMap Value.node? = pre.filterMap Value.node? ++ previous results k := by
    rw [argsb, List.filterMap_append, List.filterMap_map]
    exact congrArg _ List.filterMap_some
  have test (s : NodeRef) (hs : s ∈ mb.args.filterMap Value.node?) :
      (do return decide ((← p.arena.node s).kind = .branchResult) : Except Failure Bool) =
        .ok (p.isResult s) := by
    rw [split] at hs
    rcases List.mem_append.mp hs with hs | hs
    · obtain ⟨m, hm, -⟩ := fromPre s hs
      exact (isResult_eq hm).1
    · obtain ⟨m, hm, -⟩ := h.previous_kind hs
      exact (isResult_eq hm).1
  have kept : (mb.args.filterMap Value.node?).filter p.isResult = previous results k := by
    rw [split, List.filter_append, List.filter_eq_nil_iff.mpr, List.nil_append,
      List.filter_eq_self.mpr]
    · intro s hs
      obtain ⟨m, hm, kind⟩ := h.previous_kind hs
      rw [(isResult_eq hm).2, decide_eq_true kind]
    · intro s hs
      obtain ⟨m, hm, kind⟩ := fromPre s hs
      rw [(isResult_eq hm).2, decide_eq_false kind]
      exact Bool.false_ne_true
  rw [earlierResults, (node_eq_ok_iff.mp hm).2]
  simp only [present, pure_bind, kind, ne_eq, not_true_eq_false, if_false, args,
    List.getElem?_cons_zero]
  rw [hmb]
  change (do
    let results ← (mb.args.filterMap Value.node?).filterM fun r => do
      return decide ((← p.arena.node r).kind = .branchResult)
    return results.map NodeRef.index : Except Failure (List Nat)) = _
  rw [filterM_eq_ok test, kept]
  rfl

/-! ### Chains -/

/-- The positions of the results of a conditional. -/
def IsResultAt (results : List (List NodeRef)) (i : Nat) : Prop :=
  ∃ (k : Nat) (l : List NodeRef) (r : NodeRef), results[k]? = some l ∧ r ∈ l ∧ r.index = i

theorem IsResultAt.lt (h : p.arena.Branches n bs results) {i : Nat} (hi : IsResultAt results i) :
    i < p.arena.size := by
  obtain ⟨k, l, r, hl, hr, rfl⟩ := hi
  obtain ⟨b, hb⟩ := h.getElem?_branches hl
  obtain ⟨m, w, hm, -⟩ := h.result hb hl r hr
  exact (Array.getElem?_eq_some_iff.mp (node_eq_ok_iff.mp hm).2).1

theorem closed_results (h : p.arena.Branches n bs results) :
    ClosedUnder p.earlierResults (IsResultAt results) := by
  rintro i ⟨k, l, r, hl, hr, rfl⟩
  obtain ⟨b, hb⟩ := h.getElem?_branches hl
  refine ⟨_, earlierResults_eq h hb hl hr, fun j hj => ?_⟩
  obtain ⟨s, hs, rfl⟩ := List.mem_map.mp hj
  cases k with
  | zero => cases hs
  | succ k =>
      have hk : k < results.length := by
        have := (List.getElem?_eq_some_iff.mp hl).1
        omega
      rw [previous, List.getD_eq_getElem?_getD, List.getElem?_eq_getElem hk] at hs
      exact ⟨k, _, s, List.getElem?_eq_getElem hk, hs, rfl⟩

/-- A search from the results of the last branch finds all results. -/
theorem yields_explore_results (h : p.arena.Branches n bs results) :
    Yields (explore p.earlierResults (Array.replicate p.arena.size false)
      ((previous results results.length).map NodeRef.index).reverse) () fun seen _ =>
        ∀ i, seen.getD i false = true ↔ IsResultAt results i := by
  have last {r : NodeRef} (hr : r ∈ previous results results.length) :
      ∃ (k : Nat) (l : List NodeRef), results[k]? = some l ∧ r ∈ l := by
    cases len : results.length with
    | zero =>
        rw [len] at hr
        cases hr
    | succ k =>
        rw [len, previous, List.getD_eq_getElem?_getD,
          List.getElem?_eq_getElem (by omega : k < results.length)] at hr
        exact ⟨k, _, List.getElem?_eq_getElem (by omega), hr⟩
  refine (yields_explore (closed_results h) ?_ ?_).mono fun seen _ _ e i => ⟨fun hi => ?_, ?_⟩
  · intro i hi
    simpa using IsResultAt.lt h hi
  · intro i hi
    obtain ⟨r, hr, rfl⟩ := List.mem_map.mp (List.mem_reverse.mp hi)
    obtain ⟨k, l, hl, hr⟩ := last hr
    exact ⟨k, l, r, hl, hr, rfl⟩
  · rcases e.inside hi with hi | hi
    · cases (getD_replicate ..).symm.trans hi
    · exact hi
  · -- all results of a branch are found, by induction from the last branch
    have found (d : Nat) : ∀ k l, k + d + 1 = results.length → results[k]? = some l → ∀ r ∈ l,
        seen.getD r.index false = true := by
      induction d with
      | zero =>
          intro k l len hl r hr
          refine e.root (List.mem_reverse.mpr (List.mem_map.mpr ⟨r, ?_, rfl⟩))
          rw [← len, previous, List.getD_eq_getElem?_getD, hl]
          exact hr
      | succ d ih =>
          intro k l len hl r hr
          have hk := List.getElem?_eq_getElem (show k + 1 < results.length by omega)
          obtain ⟨r', hr'⟩ := List.exists_mem_of_ne_nil _ (h.nonempty hk)
          obtain ⟨b', hb'⟩ := h.getElem?_branches hk
          refine e.closed (fun i l hi => ?_) (ih (k + 1) _ (by omega) hk r' hr')
            (earlierResults_eq h hb' hk hr') _ (List.mem_map.mpr ⟨r, ?_, rfl⟩)
          · cases (getD_replicate ..).symm.trans hi
          · rw [previous, List.getD_eq_getElem?_getD, hl]
            exact hr
    rintro ⟨k, l, r, hl, hr, rfl⟩
    have := (List.getElem?_eq_some_iff.mp hl).1
    exact found (results.length - k - 1) k l (by omega) hl r hr

/-- Takes a result into the results of its branch. -/
def sortResult (p : Problem F) (branches : TreeMap Nat (List NodeRef)) (i : Nat) :
    TreeMap Nat (List NodeRef) :=
  match p.branchOf? i with
  | some b => branches.insert b (branches.getD b [] ++ [p.arena.handle i])
  | none => branches

/-- What a branch has after results were sorted into branches is what it had
and, in order, the results that belong to it. -/
theorem getD_sortResults (xs : List Nat) (branches : TreeMap Nat (List NodeRef)) (b : Nat) :
    (xs.foldl p.sortResult branches).getD b [] = branches.getD b [] ++
        (xs.filter fun i => p.branchOf? i = some b).map p.arena.handle ∧
      ((xs.foldl p.sortResult branches).contains b = true ↔
        branches.contains b = true ∨ ∃ i ∈ xs, p.branchOf? i = some b) := by
  induction xs generalizing branches with
  | nil => simp
  | cons x xs ih =>
      rw [List.foldl_cons]
      refine (ih _).imp (fun eq => eq.trans ?_) fun iff => iff.trans ?_
      · cases hx : p.branchOf? x with
        | none => simp [sortResult, hx]
        | some b' =>
            simp only [sortResult, TreeMap.getD_insert, Nat.compare_eq_eq, List.filter_cons, hx,
              Option.some.injEq, decide_eq_true_eq]
            split
            case isTrue eq =>
                subst eq
                simp
            case isFalse => rfl
      · cases hx : p.branchOf? x with
        | none => simp [sortResult, hx]
        | some b' =>
            simp only [sortResult, TreeMap.contains_insert, Bool.or_eq_true, beq_iff_eq,
              List.exists_mem_cons_iff, hx, Option.some.injEq, Nat.compare_eq_eq]
            tauto

/-- A result belongs to the branch that has it. -/
theorem branchOf?_eq (h : p.arena.Branches n bs results) {k : Nat} {b : Branch} {l : List NodeRef}
    (hb : bs[k]? = some b) (hl : results[k]? = some l) {r : NodeRef} (hr : r ∈ l) :
    p.branchOf? r.index = some b.node.index ∧ p.arena.handle r.index = r := by
  obtain ⟨m, w, hm, -, args, -⟩ := h.result hb hl r hr
  rw [branchOf?, (node_eq_ok_iff.mp hm).2]
  exact ⟨by simp [args, Value.node?], handle_eq (node_eq_ok_iff.mp hm).1⟩

/-- Sorted into branches, the results are back where they came from. -/
theorem getElem?_sortResults (h : p.arena.Branches n bs results) {found : List Nat}
    (mem : ∀ i, i ∈ found ↔ IsResultAt results i) (ascending : found.Pairwise (· < ·)) {k : Nat}
    {b : Branch} {l : List NodeRef} (hb : bs[k]? = some b) (hl : results[k]? = some l) :
    (found.foldl p.sortResult ∅)[b.node.index]? = some l := by
  obtain ⟨eq, has⟩ := getD_sortResults (p := p) found ∅ b.node.index
  obtain ⟨r, hr⟩ := List.exists_mem_of_ne_nil _ (h.nonempty hl)
  have there : (found.foldl p.sortResult ∅).contains b.node.index = true :=
    has.mpr (.inr ⟨r.index, (mem _).mpr ⟨k, l, r, hl, hr, rfl⟩, (branchOf?_eq h hb hl hr).1⟩)
  have filtered : (found.filter fun i => p.branchOf? i = some b.node.index) =
      l.map NodeRef.index := by
    refine eq_of_ascending (fun i => i) (ascending.filter _) ?_ fun i => ?_
    · exact List.pairwise_map.mpr (h.sorted hl)
    · rw [List.mem_filter, mem, decide_eq_true_eq]
      constructor
      · rintro ⟨⟨k', l', r', hl', hr', rfl⟩, at_⟩
        obtain ⟨b', hb'⟩ := h.getElem?_branches hl'
        rw [(branchOf?_eq h hb' hl' hr').1, Option.some.injEq] at at_
        cases h.eq_of_index_eq hb' hb at_
        cases hl.symm.trans hl'
        exact List.mem_map_of_mem hr'
      · intro hi
        obtain ⟨r', hr', rfl⟩ := List.mem_map.mp hi
        exact ⟨⟨k, l, r', hl, hr', rfl⟩, (branchOf?_eq h hb hl hr').1⟩
  have value : (found.foldl p.sortResult ∅).getD b.node.index [] = l := by
    rw [eq, TreeMap.getD_emptyc, List.nil_append, filtered, List.map_map]
    exact (List.map_congr_left fun r hr => (branchOf?_eq h hb hl hr).2).trans (List.map_id l)
  rw [TreeMap.contains_eq_isSome_getElem?, Option.isSome_iff_exists] at there
  obtain ⟨l', hl'⟩ := there
  rw [TreeMap.getD_eq_getD_getElem?, hl', Option.getD_some] at value
  exact hl'.trans (congrArg some value)

theorem toList_sortResults (h : p.arena.Branches n bs results) {found : List Nat}
    (mem : ∀ i, i ∈ found ↔ IsResultAt results i) (ascending : found.Pairwise (· < ·)) :
    (found.foldl p.sortResult ∅).toList =
      (bs.zip results).map fun e => (e.1.node.index, e.2) := by
  have own {k : Nat} {b : Branch} {l : List NodeRef} (hb : bs[k]? = some b)
      (hl : results[k]? = some l) := getElem?_sortResults h mem ascending hb hl
  refine toList_eq_of_ascending ?_ fun i v => ⟨fun hv => ?_, fun hv => ?_⟩
  · rw [List.pairwise_map, List.pairwise_iff_getElem]
    intro j k hj hk lt
    simp only [List.getElem_zip]
    rw [List.length_zip] at hj hk
    exact h.index_lt lt (List.getElem?_eq_getElem (by omega)) (List.getElem?_eq_getElem (by omega))
  · obtain ⟨⟨b, l⟩, hbl, eq⟩ := List.mem_map.mp hv
    cases eq
    obtain ⟨k, hk⟩ := List.mem_iff_getElem?.mp hbl
    obtain ⟨hb, hl⟩ := List.getElem?_zip_eq_some.mp hk
    exact own hb hl
  · have has := ((getD_sortResults (p := p) found ∅ i).2).mp (by
      rw [TreeMap.contains_eq_isSome_getElem?, hv]
      rfl)
    rcases has with has | ⟨j, hj, hi⟩
    · simp at has
    · obtain ⟨k, l, r, hl, hr, rfl⟩ := (mem j).mp hj
      obtain ⟨b, hb⟩ := h.getElem?_branches hl
      rw [(branchOf?_eq h hb hl hr).1, Option.some.injEq] at hi
      subst hi
      cases (own hb hl).symm.trans hv
      refine List.mem_map.mpr ⟨(b, v), List.mem_iff_getElem?.mpr ⟨k, ?_⟩, rfl⟩
      exact List.getElem?_zip_eq_some.mpr ⟨hb, hl⟩

/-- The chain behind the end of a conditional. -/
theorem collectChain_eq {sk : Skeleton} (h : p.arena.Conditional n sk results) :
    p.collectChain sk.endIf = .ok (listed sk.branches results) := by
  obtain ⟨m, hm, -, args⟩ := h.endIf
  obtain ⟨seen, run, hseen⟩ := exists_ok_of_yields (yields_explore_results h.toBranches)
  have indices : m.argIndices = (previous results results.length).map NodeRef.index := by
    rw [Node.argIndices, args, List.filterMap_map]
    exact congrFun List.filterMap_eq_map _
  have result : p.collectChain sk.endIf = .ok
      ((((List.range p.arena.size).filter fun i => seen.getD i false).foldl p.sortResult
        ∅).toList.map fun e => (p.arena.handle e.1, e.2)) := by
    rw [collectChain, hm]
    change Except.bind (explore p.earlierResults _ m.argIndices.reverse) _ = _
    rw [indices, run]
    rfl
  have mem (i : Nat) : i ∈ (List.range p.arena.size).filter (fun i => seen.getD i false) ↔
      IsResultAt results i := by
    rw [List.mem_filter, hseen, List.mem_range, and_iff_right_iff_imp]
    exact IsResultAt.lt h.toBranches
  rw [result, toList_sortResults h.toBranches mem (List.pairwise_lt_range.filter _), List.map_map,
    listed]
  refine congrArg Except.ok (List.map_congr_left fun e he => ?_)
  obtain ⟨b, l⟩ := e
  obtain ⟨k, hk⟩ := List.mem_iff_getElem?.mp he
  obtain ⟨hb, -⟩ := List.getElem?_zip_eq_some.mp hk
  obtain ⟨mb, _, _, _, hmb, -⟩ := h.branch hb
  simp only [Function.comp_apply, handle_eq (node_eq_ok_iff.mp hmb).1]

end Problem

end LoopDiff
