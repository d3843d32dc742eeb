import LoopDiff.Proofs.Loop.Conditional
import LoopDiff.Proofs.Loop.Ranges
import Mathlib.Data.Finset.Card
import Mathlib.Data.Finset.Range

/-!
# LoopDiff.Proofs.Loop.Branching

How conditionals are recorded and filled.

A new conditional has one result in each branch (`yields_newConditional`).
Filling it further adds a result to each branch by way of the node that
follows the branch (`ends_extend`).  This is the one place where a node
gets an argument that came after it, and it is where the recorder looks for
cycles: a result leads to its own branch and to the branches before, never
to the node that follows.
-/

namespace LoopDiff

open Std (TreeMap TreeSet)

variable {F : Type}

namespace Arena

variable {P : Nat → Kind → Prop} {a a' : Arena F} {n : Nat} {bs : List Branch}
  {results : List (List NodeRef)}

/-! ## What stays -/

theorem Guard.keep {start : NodeRef} {kind : Kind} {pre : List (Value F)} {test : Nat → Bool}
    (h : a.Guard start kind pre test) (keeps : a.Keeps P a')
    (fixed : ∀ i k, k.isFixed = true → P i k) : a'.Guard start kind pre test := by
  cases h with
  | startIf hc kind =>
      exact .startIf (keeps.node_eq hc (fixed _ _ (by rw [kind]; rfl))) kind
  | elseIf hc kind =>
      exact .elseIf (keeps.node_eq hc (fixed _ _ (by rw [kind]; rfl))) kind
  | otherwise => exact .otherwise

/-- Branches stay what they are if their own nodes are kept. -/
theorem Branches.keep (h : a.Branches n bs results) (keeps : a.Keeps P a')
    (fixed : ∀ i k, k.isFixed = true → P i k) (own : ∀ b ∈ bs, ∀ k, k.tier = 1 → P b.node.index k) :
    a'.Branches n bs results where
  length_eq := h.length_eq
  branch hb := by
    obtain ⟨m, pre, test, start, hm, hstart, guard, args, sel⟩ := h.branch hb
    exact ⟨m, pre, test, start, keeps.node_eq hm (own _ (List.mem_of_getElem? hb) _ guard.tier),
      hstart, guard.keep keeps fixed, args, sel⟩
  result hb hl r hr := by
    obtain ⟨m, w, hm, kind, args, mw, hmw, kindw⟩ := h.result hb hl r hr
    exact ⟨m, w, keeps.node_eq hm (fixed _ _ (by rw [kind]; rfl)), kind, args, mw,
      keeps.node_eq hmw (fixed _ _ (by rw [kindw]; rfl)), kindw⟩
  nonempty := h.nonempty
  ascending := h.ascending
  sorted := h.sorted

theorem Conditional.keep {sk : Skeleton} (h : a.Conditional n sk results) (keeps : a.Keeps P a')
    (fixed : ∀ i k, k.isFixed = true → P i k)
    (own : ∀ b ∈ sk.branches, ∀ k, k.tier = 1 → P b.node.index k)
    (endIf : ∀ k, k.tier = 1 → P sk.endIf.index k) :
    a'.Conditional n sk results where
  toBranches := h.toBranches.keep keeps fixed own
  inhabited := h.inhabited
  endIf := by
    obtain ⟨m, hm, kind, args⟩ := h.endIf
    exact ⟨m, keeps.node_eq hm (endIf _ (by rw [kind]; rfl)), kind, args⟩

/-- A result names a branch and a write. -/
def Guards (a : Arena F) (r branch write : NodeRef) : Prop :=
  ∃ m, a.node r = .ok m ∧ m.kind = .branchResult ∧ m.args = [.node branch, .node write]

theorem Guards.keep {r branch write : NodeRef} (h : a.Guards r branch write)
    (keeps : a.Keeps P a') (fixed : ∀ i k, k.isFixed = true → P i k) :
    a'.Guards r branch write := by
  obtain ⟨m, hm, kind, args⟩ := h
  exact ⟨m, keeps.node_eq hm (fixed _ _ (by rw [kind]; rfl)), kind, args⟩

/-- A node that writes. -/
def IsWrite (a : Arena F) (w : NodeRef) : Prop :=
  ∃ m, a.node w = .ok m ∧ m.kind = .indexedWrite

theorem IsWrite.keep {w : NodeRef} (h : a.IsWrite w) (keeps : a.Keeps P a')
    (fixed : ∀ i k, k.isFixed = true → P i k) : a'.IsWrite w := by
  obtain ⟨m, hm, kind⟩ := h
  exact ⟨m, keeps.node_eq hm (fixed _ _ (by rw [kind]; rfl)), kind⟩

theorem lt_of_node {r : NodeRef} {m : Node F} (h : a.node r = .ok m) : r.index < a.size :=
  (Array.getElem?_eq_some_iff.mp (node_eq_ok_iff.mp h).2).1

end Arena

/-! ## A new conditional -/

/-- Sets that together have as many iterations as the loop leave none out. -/
theorem mem_of_size_eq {n : Nat} {taken : IndexSet} {iterations : List Nat}
    (nodup : iterations.Nodup) (below : ∀ i, i ∈ taken ∨ i ∈ iterations → i < n)
    (disjoint : ∀ i ∈ iterations, i ∉ taken) (size : taken.size + iterations.length = n) {i : Nat}
    (hi : i < n) : i ∈ taken ∨ i ∈ iterations := by
  have all : (taken.toList ++ iterations).toFinset = Finset.range n := by
    refine Finset.eq_of_subset_of_card_le (fun j hj => ?_) ?_
    · rw [List.mem_toFinset, List.mem_append, TreeSet.mem_toList] at hj
      exact Finset.mem_range.mpr (below j hj)
    · rw [Finset.card_range, List.toFinset_card_of_nodup, List.length_append,
        TreeSet.length_toList, size]
      refine List.nodup_append.mpr ⟨nodup_toList _, nodup, ?_⟩
      rintro j hj _ hj' rfl
      exact disjoint j hj' (TreeSet.mem_toList.mp hj)
  have mem : i ∈ (taken.toList ++ iterations).toFinset := all ▸ Finset.mem_range.mpr hi
  rwa [List.mem_toFinset, List.mem_append, TreeSet.mem_toList] at mem

namespace LoopScope

variable [Scalar F] {a : Arena F} {s : LoopScope} {n : Nat}

open Arena

theorem yields_condition {iterations : List Nat} {taken : IndexSet} {mi : Node F}
    (hi : a.node s.index = .ok mi) (kind : mi.kind = .iteration) (hn : s.iterations = n)
    (small : n ≤ openEnd) (below : ∀ i, i ∈ iterations ∨ i ∈ taken → i < n) :
    Yields (s.condition iterations taken : Recording F NodeRef) a fun c a' => ∃ m,
      a'.node c = .ok m ∧ m.kind = .condition ∧
        ∀ it < n, it ∉ taken → (inRanges m.info it = true ↔ it ∈ iterations) := by
  refine (yields_push_new (by simp) (fits_node hi (by simp [kind, Kind.tier]))).mono ?_
  rintro c a' le ⟨-, hc, -⟩
  refine ⟨_, hc, rfl, fun it hit free => ?_⟩
  refine (inRanges_branchRanges (by omega) (fun i h => ?_) (by omega) free).trans ?_
  · have := below i (h.imp (fun h => by simpa [TreeSet.mem_ofList] using h) id)
    omega
  · simp [TreeSet.mem_ofList]

/-- The node that starts a branch. -/
theorem yields_branchNode {start : Option NodeRef} {iterations : List Nat} {taken : IndexSet}
    {earlier : List NodeRef} {mi : Node F} (hi : a.node s.index = .ok mi)
    (kind : mi.kind = .iteration) (hn : s.iterations = n) (small : n ≤ openEnd)
    (nodup : iterations.Nodup) (below : ∀ i, i ∈ taken ∨ i ∈ iterations → i < n)
    (disjoint : ∀ i ∈ iterations, i ∉ taken)
    (hstart : ∀ r, start = some r → ∃ m, a.node r = .ok m ∧ m.kind.tier = 1)
    (hearlier : ∀ r ∈ earlier, ∃ m, a.node r = .ok m ∧ m.kind = .branchResult) :
    Yields (s.branchNode start iterations taken (earlier.map .node) : Recording F NodeRef) a
      fun b a' => a.size ≤ b.index ∧ ∃ m pre test, a'.node b = .ok m ∧
        a'.Guard (start.getD b) m.kind pre test ∧ m.args = pre ++ earlier.map .node ∧
        ∀ it < n, it ∉ taken → (test it = true ↔ it ∈ iterations) := by
  have fits {a' : Arena F} (le : a ≤ a') {kind : Kind} (tier : kind.tier = 1) :
      a'.Fits kind (earlier.map .node) := by
    intro r hr
    obtain ⟨r', hr', eq⟩ := List.mem_map.mp hr
    cases eq
    obtain ⟨m, hm, kind'⟩ := hearlier r hr'
    exact fits_node (Keeps.node_eq le hm trivial) (by rw [kind', tier]; decide) r
      (List.mem_singleton.mpr rfl)
  have condition := yields_condition hi kind hn small fun i h => below i h.symm
  cases start with
  | none =>
      refine condition.bind fun c a' le ⟨mc, hc, kindc, test⟩ => ?_
      refine (yields_push_new (by simp) ((fits_node hc (by simp [kindc, Kind.tier])).cons
        (fits le rfl))).mono ?_
      rintro b a'' le' ⟨index, hb, -⟩
      exact ⟨index ▸ Keeps.size_le le, _, _, _, hb,
        .startIf (Keeps.node_eq le' hc trivial) kindc, rfl, test⟩
  | some start =>
      obtain ⟨ms, hs, tier⟩ := hstart start rfl
      have fitsStart {a' : Arena F} (le : a ≤ a') {kind : Kind} (tier' : kind.tier = 1) :
          a'.Fits kind [.node start] :=
        fits_node (Keeps.node_eq le hs trivial) (by simp [tier, tier'])
      rw [branchNode]
      split
      case isTrue size =>
          refine (yields_push_new (by simp) ((fitsStart le_rfl rfl).cons (fits le_rfl rfl))).mono ?_
          rintro b a' le ⟨index, hb, -⟩
          refine ⟨index.ge, _, _, _, hb, .otherwise, rfl, fun it hit free => ?_⟩
          have mem := mem_of_size_eq nodup below disjoint (size.trans hn) hit
          exact iff_of_true rfl (mem.resolve_left free)
      case isFalse =>
          refine condition.bind fun c a' le ⟨mc, hc, kindc, test⟩ => ?_
          refine (yields_push_new (by simp) ((fitsStart le rfl).cons
            ((fits_node hc (by simp [kindc, Kind.tier])).cons (fits le rfl)))).mono ?_
          rintro b a'' le' ⟨index, hb, -⟩
          exact ⟨index ▸ Keeps.size_le le, _, _, _, hb,
            .elseIf (Keeps.node_eq le' hc trivial) kindc, rfl, test⟩

/-- A conditional under construction, with one result for each of the
branches done. -/
structure Growing (a : Arena F) (n base : Nat) (done : List (List Nat × NodeRef))
    (p : Progress F) (results : List (List NodeRef)) : Prop where
  branches : a.Branches n p.branches results
  iterations_eq : p.branches.map Branch.iterations = done.map Prod.fst
  start_eq : p.start = p.branches.head?.map Branch.node
  earlier_eq : p.earlier = (previous results results.length).map .node
  taken {i : Nat} : i ∈ p.taken ↔ ∃ e ∈ done, i ∈ e.1
  fresh : ∀ b ∈ p.branches, base ≤ b.node.index
  placed {k : Nat} {b : Branch} {e : List Nat × NodeRef} : p.branches[k]? = some b →
    done[k]? = some e → ∃ r, results[k]? = some [r] ∧ a.Guards r b.node e.2

theorem freeBefore_length {bs : List Branch} {it : Nat} :
    FreeBefore bs bs.length it ↔ ∀ b ∈ bs, it ∉ b.iterations := by
  constructor
  · intro h b hb
    obtain ⟨k, hk⟩ := List.mem_iff_getElem?.mp hb
    exact h k b (List.getElem?_eq_some_iff.mp hk).1 hk
  · exact fun h k b _ hb => h b (List.mem_of_getElem? hb)

theorem previous_append (results : List (List NodeRef)) (l : List NodeRef) {k : Nat}
    (h : k ≤ results.length) : previous (results ++ [l]) k = previous results k := by
  cases k with
  | zero => rfl
  | succ k =>
      rw [previous, previous, List.getD_eq_getElem?_getD, List.getD_eq_getElem?_getD,
        List.getElem?_append_left h]

omit [Scalar F] in
/-- One more branch. -/
theorem branches_append {bs : List Branch} {results : List (List NodeRef)} {b : Branch}
    {r w start : NodeRef} {m : Node F} {pre : List (Value F)} {test : Nat → Bool}
    (h : a.Branches n bs results) (hb : a.node b.node = .ok m)
    (hstart : (bs ++ [b]).head?.map Branch.node = some start)
    (guard : a.Guard start m.kind pre test)
    (args : m.args = pre ++ (previous results results.length).map .node)
    (sel : ∀ it < n, FreeBefore bs bs.length it → (test it = true ↔ it ∈ b.iterations))
    (later : ∀ b' ∈ bs, b'.node.index < b.node.index) (hr : a.Guards r b.node w)
    (hw : a.IsWrite w) : a.Branches n (bs ++ [b]) (results ++ [[r]]) := by
  have before {k : Nat} {b' : Branch} (hb' : (bs ++ [b])[k]? = some b') :
      bs[k]? = some b' ∨ k = bs.length ∧ b' = b := by
    rw [List.getElem?_append] at hb'
    split at hb'
    case isTrue => exact .inl hb'
    case isFalse ge =>
        obtain ⟨lt, eq⟩ := List.getElem?_eq_some_iff.mp hb'
        rw [List.length_singleton] at lt
        exact .inr ⟨by omega, by simpa using eq.symm⟩
  have beforeResult {k : Nat} {l : List NodeRef} (hl : (results ++ [[r]])[k]? = some l) :
      results[k]? = some l ∨ k = results.length ∧ l = [r] := by
    rw [List.getElem?_append] at hl
    split at hl
    case isTrue => exact .inl hl
    case isFalse ge =>
        obtain ⟨lt, eq⟩ := List.getElem?_eq_some_iff.mp hl
        rw [List.length_singleton] at lt
        exact .inr ⟨by omega, by simpa using eq.symm⟩
  have free {k it : Nat} (le : k ≤ bs.length) :
      FreeBefore (bs ++ [b]) k it ↔ FreeBefore bs k it := by
    refine forall_congr' fun j => forall_congr' fun b' => imp_congr_right fun lt => ?_
    rw [List.getElem?_append_left (by omega)]
  refine ⟨by simp [h.length_eq], fun {k b'} hb' => ?_, fun {k b' l} hb' hl r' hr' => ?_,
    fun {k l} hl => ?_, ?_, fun {k l} hl => ?_⟩
  · rcases before hb' with hb' | ⟨rfl, rfl⟩
    · obtain ⟨m', pre', test', start', hm', hstart', guard', args', sel'⟩ := h.branch hb'
      have lt := (List.getElem?_eq_some_iff.mp hb').1
      refine ⟨m', pre', test', start', hm', ?_, guard', ?_, fun it hit h' => sel' it hit ?_⟩
      · rw [List.head?_append, Option.map_eq_some_iff] at *
        obtain ⟨b₀, hb₀, rfl⟩ := hstart'
        exact ⟨b₀, by simp [hb₀], rfl⟩
      · rw [previous_append _ _ (by rw [h.length_eq]; omega), args']
      · exact (free (by omega)).mp h'
    · refine ⟨m, pre, test, start, hb, hstart, guard, ?_, fun it hit h' => sel it hit ?_⟩
      · rw [← h.length_eq, previous_append _ _ le_rfl, args]
      · exact (free le_rfl).mp h'
  · rcases before hb' with hb' | ⟨rfl, rfl⟩
    · rcases beforeResult hl with hl | ⟨rfl, -⟩
      · exact h.result hb' hl r' hr'
      · have := (List.getElem?_eq_some_iff.mp hb').1
        rw [h.length_eq] at this
        exact absurd this (Nat.lt_irrefl _)
    · rcases beforeResult hl with hl | ⟨-, rfl⟩
      · have := (List.getElem?_eq_some_iff.mp hl).1
        rw [h.length_eq] at this
        exact absurd this (Nat.lt_irrefl _)
      · cases List.mem_singleton.mp hr'
        obtain ⟨m', hm', kind', args'⟩ := hr
        exact ⟨m', w, hm', kind', args', hw⟩
  · rcases beforeResult hl with hl | ⟨-, rfl⟩
    · exact h.nonempty hl
    · exact List.cons_ne_nil _ _
  · refine List.pairwise_append.mpr ⟨h.ascending, List.pairwise_singleton _ _, ?_⟩
    intro b' hb' b'' hb''
    cases List.mem_singleton.mp hb''
    exact later b' hb'
  · rcases beforeResult hl with hl | ⟨-, rfl⟩
    · exact h.sorted hl
    · exact List.pairwise_singleton _ _

/-- Recording one branch. -/
theorem yields_addBranch {p : Progress F} {base : Nat} {done : List (List Nat × NodeRef)}
    {results : List (List NodeRef)} {iterations : List Nat} {w : NodeRef} {mi : Node F}
    (h : Growing a n base done p results) (hbase : base ≤ a.size)
    (hi : a.node s.index = .ok mi) (kind : mi.kind = .iteration) (hn : s.iterations = n)
    (small : n ≤ openEnd) (nodup : iterations.Nodup)
    (below : ∀ i, (∃ e ∈ done, i ∈ e.1) ∨ i ∈ iterations → i < n)
    (disjoint : ∀ i ∈ iterations, ∀ e ∈ done, i ∉ e.1) (hw : a.IsWrite w) :
    Yields (s.addBranch p iterations w : Recording F (Progress F)) a fun p' a' =>
      ∃ results', Growing a' n base (done ++ [(iterations, w)]) p' results' := by
  have hstart (r : NodeRef) (hr : p.start = some r) : ∃ m, a.node r = .ok m ∧ m.kind.tier = 1 := by
    rw [h.start_eq, List.head?_eq_getElem?, Option.map_eq_some_iff] at hr
    obtain ⟨b, hb, rfl⟩ := hr
    obtain ⟨m, _, _, _, hm, -, guard, -⟩ := h.branches.branch hb
    exact ⟨m, hm, guard.tier⟩
  rw [addBranch, h.earlier_eq]
  refine (yields_branchNode hi kind hn small nodup (fun i hi => below i (hi.imp_left h.taken.mp))
    (fun i hi mem => ?_) hstart fun r hr => h.branches.previous_kind hr).bind ?_
  · obtain ⟨e, he, mem⟩ := h.taken.mp mem
    exact disjoint i hi e he mem
  rintro b a' le ⟨index, m, pre, test, hb, guard, args, sel⟩
  have hw' := hw.keep le (fun _ _ _ => trivial)
  obtain ⟨mw, hmw, kindw⟩ := hw'
  have tierb := guard.tier
  refine (yields_push_new (by simp) ((fits_node hb (by rw [tierb]; decide)).cons
    (fits_node hmw (by rw [kindw]; decide)))).bind ?_
  rintro r a'' le' ⟨-, hr, -⟩
  have branches' := h.branches.keep (le.trans le') (fun _ _ _ => trivial) fun _ _ _ _ => trivial
  have later (b' : Branch) (hb' : b' ∈ p.branches) : b'.node.index < b.index := by
    obtain ⟨k, hk⟩ := List.mem_iff_getElem?.mp hb'
    obtain ⟨m', _, _, _, hm', -⟩ := h.branches.branch hk
    exact Nat.lt_of_lt_of_le (lt_of_node hm') index
  have hr' : a''.Guards r b w := ⟨_, hr, rfl, rfl⟩
  refine yields_pure ⟨results ++ [[r]], ?_, ?_, ?_, ?_, ?_, ?_, ?_⟩
  · refine branches_append (b := ⟨iterations, b⟩) branches' (Keeps.node_eq le' hb trivial) ?_
      (guard.keep le' fun _ _ _ => trivial) args (fun it hit free => sel it hit fun mem => ?_) later
      hr' (hw.keep (le.trans le') fun _ _ _ => trivial)
    · rw [h.start_eq, List.head?_append]
      cases p.branches.head? <;> rfl
    · obtain ⟨e, he, mem⟩ := h.taken.mp mem
      have : e.1 ∈ p.branches.map Branch.iterations := by
        rw [h.iterations_eq]
        exact List.mem_map_of_mem he
      obtain ⟨b', hb', eq⟩ := List.mem_map.mp this
      exact freeBefore_length.mp free b' hb' (eq ▸ mem)
  · rw [List.map_append, List.map_append, h.iterations_eq]
    rfl
  · rw [h.start_eq, List.head?_append]
    cases p.branches.head? <;> rfl
  · rw [List.length_append, List.length_singleton, previous, List.getD_eq_getElem?_getD,
      List.getElem?_append_right le_rfl, Nat.sub_self]
    rfl
  · intro i
    simp only [TreeSet.mem_insertMany_list, h.taken, List.contains_iff_mem, List.mem_append,
      or_and_right, exists_or, List.mem_singleton, exists_eq_left]
  · intro b' hb'
    rcases List.mem_append.mp hb' with hb' | hb'
    · exact h.fresh b' hb'
    · cases List.mem_singleton.mp hb'
      exact hbase.trans index
  · intro k b' e hb' he
    have len : p.branches.length = done.length := by
      simpa using congrArg List.length h.iterations_eq
    by_cases lt : k < p.branches.length
    · rw [List.getElem?_append_left lt] at hb'
      rw [List.getElem?_append_left (by omega)] at he
      obtain ⟨r', hr', guards⟩ := h.placed hb' he
      refine ⟨r', ?_, guards.keep (le.trans le') fun _ _ _ => trivial⟩
      rw [List.getElem?_append_left (List.getElem?_eq_some_iff.mp hr').1, hr']
    · rw [List.getElem?_append_right (by omega)] at hb' he
      obtain ⟨lt', eq⟩ := List.getElem?_eq_some_iff.mp hb'
      rw [List.length_singleton] at lt'
      have k_eq : k = p.branches.length := by omega
      subst k_eq
      rw [Nat.sub_self] at hb'
      rw [len, Nat.sub_self] at he
      cases hb'
      cases he
      refine ⟨r, ?_, hr'⟩
      rw [← h.branches.length_eq, List.getElem?_append_right le_rfl, Nat.sub_self]
      rfl

/-- What a contribution adds to a conditional: one result more in each
branch, with the write for that branch. -/
structure Extended (a : Arena F) (bs : List Branch) (writes : List NodeRef)
    (results results' : List (List NodeRef)) : Prop where
  one_more {k : Nat} {b : Branch} {w : NodeRef} : bs[k]? = some b → writes[k]? = some w →
    ∃ r, results'[k]? = some (results.getD k [] ++ [r]) ∧ a.Guards r b.node w

/-- Recording a conditional. -/
theorem yields_newConditional {partition : Partition} {writes : List NodeRef} {mi : Node F}
    (hi : a.node s.index = .ok mi) (kind : mi.kind = .iteration) (hn : s.iterations = n)
    (small : n ≤ openEnd) (ne : partition ≠ []) (len : partition.length = writes.length)
    (nodup : ∀ l ∈ partition, l.Nodup) (below : ∀ l ∈ partition, ∀ i ∈ l, i < n)
    (disjoint : partition.Pairwise List.Disjoint) (hw : ∀ w ∈ writes, a.IsWrite w) :
    Yields (s.newConditional partition writes : Recording F Skeleton) a fun sk a' =>
      ∃ results, a'.Conditional n sk results ∧ sk.branches.map Branch.iterations = partition ∧
        Extended a' sk.branches writes [] results ∧
        (∀ b ∈ sk.branches, a.size ≤ b.node.index) ∧ a.size ≤ sk.endIf.index := by
  have parts : (partition.zip writes).map Prod.fst = partition :=
    List.map_fst_zip len.le
  rw [newConditional]
  refine Yields.bind (yields_foldlM (fun done p a' => ∃ results,
    Growing a' n a.size done p results) ⟨[], ?_⟩ ?_) ?_
  · exact ⟨⟨rfl, by simp, by simp, by simp, .nil, by simp⟩, rfl, rfl, rfl, by simp, by simp,
      by simp⟩
  · rintro done ⟨iterations, w⟩ rest p a' split le ⟨results, h⟩
    have member : (iterations, w) ∈ partition.zip writes := by simp [split]
    have part : partition = done.map Prod.fst ++ iterations :: rest.map Prod.fst := by
      rw [← parts, split, List.map_append, List.map_cons]
    have memDone {e : List Nat × NodeRef} (he : e ∈ done) : e.1 ∈ partition := by
      rw [part]
      exact List.mem_append_left _ (List.mem_map_of_mem he)
    have mem := (List.of_mem_zip member).1
    refine yields_addBranch h (Keeps.size_le le) (Keeps.node_eq le hi trivial) kind hn small
      (nodup _ mem) ?_ ?_ ((hw w (List.of_mem_zip member).2).keep le fun _ _ _ => trivial)
    · rintro i (⟨e, he, hi⟩ | hi)
      · exact below _ (memDone he) i hi
      · exact below _ mem i hi
    · intro i hi e he hi'
      rw [part] at disjoint
      exact (List.pairwise_append.mp disjoint).2.2 e.1 (List.mem_map_of_mem he) iterations
        (List.mem_cons_self ..) hi' hi
  · rintro p a' le ⟨results, h⟩
    have hend : a'.Fits .endIf p.earlier := by
      rw [h.earlier_eq]
      intro r hr
      obtain ⟨r', hr', eq⟩ := List.mem_map.mp hr
      cases eq
      obtain ⟨m, hm, kind'⟩ := h.branches.previous_kind hr'
      exact fits_node hm (by rw [kind']; decide) r (List.mem_singleton.mpr rfl)
    refine (yields_push_new (by simp) hend).bind ?_
    rintro endIf a'' le' ⟨index, hendIf, -⟩
    have iterations_eq : p.branches.map Branch.iterations = partition := h.iterations_eq.trans parts
    refine yields_pure ⟨results, ⟨h.branches.keep le' (fun _ _ _ => trivial) fun _ _ _ _ => trivial,
      ?_, _, hendIf, rfl, h.earlier_eq⟩, iterations_eq, ⟨fun {k b w} hb hw => ?_⟩, h.fresh, ?_⟩
    · rintro (eq : p.branches = [])
      rw [eq] at iterations_eq
      exact ne iterations_eq.symm
    · have hpart : partition[k]? = some b.iterations := by
        rw [← iterations_eq, List.getElem?_map, hb]
        rfl
      obtain ⟨r, hr, guards⟩ := h.placed (e := (b.iterations, w)) hb
        (List.getElem?_zip_eq_some.mpr ⟨hpart, hw⟩)
      exact ⟨r, hr, guards.keep le' fun _ _ _ => trivial⟩
    · rw [index]
      exact Keeps.size_le le

/-! ## Filling a conditional further -/

/-- The node that follows the branch `k`. -/
def follower (sk : Skeleton) (k : Nat) : NodeRef :=
  ((sk.branches[k + 1]?).map Branch.node).getD sk.endIf

variable {sk : Skeleton} {results : List (List NodeRef)} {k base : Nat} {b : Branch}
  {l : List NodeRef} {r w : NodeRef}

omit [Scalar F] in
/-- The node that follows a branch has the results of the branch as its last
arguments. -/
theorem follower_node (h : a.Conditional n sk results) (hb : sk.branches[k]? = some b)
    (hl : results[k]? = some l) : ∃ m pre, a.node (follower sk k) = .ok m ∧
      m.kind.isAppendable = true ∧ m.kind.tier = 1 ∧ m.args = pre ++ l.map .node ∧
      (∀ j b', sk.branches[j]? = some b' → b'.node.index = (follower sk k).index → j = k + 1) := by
  have here : previous results (k + 1) = l := by
    rw [previous, List.getD_eq_getElem?_getD, hl, Option.getD_some]
  cases next : sk.branches[k + 1]? with
  | some b' =>
      obtain ⟨m, pre, test, start, hm, -, guard, args, -⟩ := h.branch next
      have eq : follower sk k = b'.node := by simp [follower, next]
      rw [eq]
      refine ⟨m, pre, hm, ?_, guard.tier, here ▸ args, fun j b'' hb'' =>
        h.eq_of_index_eq hb'' next⟩
      rcases guard.isBranch with kind | kind | kind <;> rw [kind] <;> rfl
  | none =>
      obtain ⟨m, hm, kind, args⟩ := h.endIf
      have eq : follower sk k = sk.endIf := by simp [follower, next]
      have len : results.length = k + 1 := by
        have := (List.getElem?_eq_some_iff.mp hb).1
        have := List.getElem?_eq_none_iff.mp next
        have := h.length_eq
        omega
      rw [eq]
      refine ⟨m, [], hm, by rw [kind]; rfl, by rw [kind]; rfl, ?_, fun j b'' hb'' index => ?_⟩
      · rw [args, len, here, List.nil_append]
      · obtain ⟨m', _, _, _, hm', -, guard, -⟩ := h.branch hb''
        have same := (node_eq_ok_iff.mp hm).2
        rw [← index, (node_eq_ok_iff.mp hm').2] at same
        cases same
        rcases guard.isBranch with kind' | kind' | kind' <;> rw [kind] at kind' <;> cases kind'

/-- What leads to a result of the branch `k`: nodes outside of branches or from
before the position `base`, the branches up to this one and the results of the
branches before. -/
inductive UpTo (a : Arena F) (base : Nat) (bs : List Branch) (results : List (List NodeRef))
    (k : Nat) : Nat → Prop
  | low {i : Nat} {m : Node F} : a.nodes[i]? = some m → i < base ∨ m.kind.tier ≤ 0 →
      UpTo a base bs results k i
  | branch {j : Nat} {b : Branch} : j ≤ k → bs[j]? = some b →
      UpTo a base bs results k b.node.index
  | result {j : Nat} {l : List NodeRef} {r : NodeRef} : j < k → results[j]? = some l → r ∈ l →
      UpTo a base bs results k r.index

omit [Scalar F] in
theorem UpTo.low_node {s : NodeRef} {m : Node F} (hm : a.node s = .ok m) (tier : m.kind.tier ≤ 0) :
    UpTo a base bs results k s.index :=
  .low (node_eq_ok_iff.mp hm).2 (.inr tier)

omit [Scalar F] in
theorem UpTo.lt (h : a.Branches n bs results) {i : Nat} (hi : UpTo a base bs results k i) :
    i < a.size := by
  cases hi with
  | low hm => exact (Array.getElem?_eq_some_iff.mp hm).1
  | branch _ hb =>
      obtain ⟨m, _, _, _, hm, -⟩ := h.branch hb
      exact lt_of_node hm
  | result _ hl hr =>
      obtain ⟨b, hb⟩ := h.getElem?_branches hl
      obtain ⟨m, w, hm, -⟩ := h.result hb hl _ hr
      exact lt_of_node hm

omit [Scalar F] in
/-- The arguments of a branch with an earlier number lead on. -/
theorem upTo_args_branch (h : a.Branches n bs results) {j : Nat} (le : j ≤ k)
    (hb : bs[j]? = some b) {m : Node F} (hm : a.node b.node = .ok m) {t : NodeRef}
    (ht : .node t ∈ m.args) : UpTo a base bs results k t.index := by
  obtain ⟨m', pre, test, start, hm', hstart, guard, args, -⟩ := h.branch hb
  cases hm.symm.trans hm'
  rw [args] at ht
  rcases List.mem_append.mp ht with ht | ht
  · rcases guard.args ht with rfl | ⟨mc, hmc, kind⟩
    · rw [List.head?_eq_getElem?, Option.map_eq_some_iff] at hstart
      obtain ⟨b₀, hb₀, rfl⟩ := hstart
      exact .branch (Nat.zero_le _) hb₀
    · exact .low_node hmc (by rw [kind]; exact le_rfl)
  · obtain ⟨t', ht', eq⟩ := List.mem_map.mp ht
    cases eq
    cases j with
    | zero => cases ht'
    | succ j =>
        rw [previous, List.getD_eq_getElem?_getD] at ht'
        cases hl : results[j]? with
        | none =>
            rw [hl] at ht'
            cases ht'
        | some l =>
            rw [hl] at ht'
            exact .result le hl ht'

omit [Scalar F] in
/-- So do the arguments of a result of such a branch. -/
theorem upTo_args_result {j : Nat} (le : j ≤ k) (hb : bs[j]? = some b) (hw : a.IsWrite w)
    {args : List (Value F)} (eq : args = [.node b.node, .node w]) {t : NodeRef}
    (ht : .node t ∈ args) : UpTo a base bs results k t.index := by
  obtain ⟨mw, hmw, kind⟩ := hw
  rw [eq] at ht
  rcases List.mem_cons.mp ht with eq | ht
  · cases eq
    exact .branch le hb
  · cases Value.node.inj (List.mem_singleton.mp ht)
    exact .low_node hmw (by rw [kind]; exact le_rfl)

omit [Scalar F] in
theorem closed_upTo (h : a.Branches n bs results) (tiered : a.TieredFrom base) :
    ClosedUnder a.successors (UpTo a base bs results k) := by
  rintro i (⟨hm, tier⟩ | ⟨le, hb⟩ | ⟨lt, hl, hr⟩)
  · obtain ⟨is, his, all⟩ := closed_tierFrom tiered 0 i ⟨_, hm, tier⟩
    refine ⟨is, his, fun j hj => ?_⟩
    obtain ⟨m, hm, tier⟩ := all j hj
    exact .low hm tier
  · obtain ⟨m, _, _, _, hm, -⟩ := h.branch hb
    exact exists_successors (node_eq_ok_iff.mp hm).2 fun t ht => upTo_args_branch h le hb hm ht
  · obtain ⟨b, hb⟩ := h.getElem?_branches hl
    obtain ⟨m, w, hm, -, args, hw⟩ := h.result hb hl _ hr
    exact exists_successors (node_eq_ok_iff.mp hm).2 fun t ht =>
      upTo_args_result (Nat.le_of_lt lt) hb hw args ht

omit [Scalar F] in
/-- A new result does not lead to the node that follows its branch. -/
theorem result_reaches (h : a.Conditional n sk results) (tiered : a.TieredFrom base)
    (fresh : base ≤ (follower sk k).index) (hb : sk.branches[k]? = some b)
    (hl : results[k]? = some l) (hw : a.IsWrite w) (hr : a.Guards r b.node w) :
    a.reaches r (follower sk k) = .ok false := by
  obtain ⟨mf, pre, hmf, appendable, tier, -, distinct⟩ := follower_node h hb hl
  obtain ⟨mr, hmr, kindr, argsr⟩ := hr
  have notResult {s : NodeRef} {m : Node F} (hm : a.node s = .ok m)
      (kind : m.kind = .branchResult) (eq : (follower sk k).index = s.index) : False := by
    have same := (node_eq_ok_iff.mp hmf).2
    rw [eq, (node_eq_ok_iff.mp hm).2] at same
    cases same
    rw [kind] at appendable
    cases appendable
  have closed : ClosedUnder a.successors fun i =>
      UpTo a base sk.branches results k i ∨ i = r.index := by
    rintro i (hi | rfl)
    · obtain ⟨is, his, all⟩ := closed_upTo h.toBranches tiered i hi
      exact ⟨is, his, fun j hj => .inl (all j hj)⟩
    · exact exists_successors (node_eq_ok_iff.mp hmr).2 fun t ht =>
        .inl (upTo_args_result le_rfl hb hw argsr ht)
  refine reaches_eq_false closed ?_ (.inr rfl) ?_
  · rintro i (hi | rfl)
    · exact hi.lt h.toBranches
    · exact lt_of_node hmr
  · rintro (hi | eq)
    · generalize index : (follower sk k).index = i at hi
      cases hi with
      | low hm tier' =>
          rw [← index] at hm tier'
          rw [(node_eq_ok_iff.mp hmf).2] at hm
          cases hm
          omega
      | branch le hb' =>
          have := distinct _ _ hb' index.symm
          omega
      | result _ hl' hr' =>
          obtain ⟨b', hb'⟩ := h.getElem?_branches hl'
          obtain ⟨m, w', hm, kind, -⟩ := h.result hb' hl' _ hr'
          exact notResult hm kind index
    · exact notResult hmr kindr eq

theorem previous_set_self {l' : List NodeRef} (hk : k < results.length) :
    previous (results.set k l') (k + 1) = l' := by
  rw [previous, List.getD_eq_getElem?_getD, List.getElem?_set_self hk, Option.getD_some]

theorem previous_set_ne {l' : List NodeRef} {j : Nat} (ne : j ≠ k + 1) :
    previous (results.set k l') j = previous results j := by
  cases j with
  | zero => rfl
  | succ j =>
      rw [previous, previous, List.getD_eq_getElem?_getD, List.getElem?_set_ne (by omega),
        List.getD_eq_getElem?_getD]

omit [Scalar F] in
/-- Nodes that take no arguments are not those that follow branches. -/
theorem node_filled {v : Value F} (h : a.Conditional n sk results)
    (hb : sk.branches[k]? = some b) (hl : results[k]? = some l) {s : NodeRef} {m : Node F}
    (hm : a.node s = .ok m) (fixed : m.kind.isAppendable = false) :
    (a.appended (follower sk k) v).node s = .ok m := by
  obtain ⟨mf, _, hmf, appendable, -⟩ := follower_node h hb hl
  have ne : s.index ≠ (follower sk k).index := by
    intro eq
    have same := (node_eq_ok_iff.mp hmf).2
    rw [← eq, (node_eq_ok_iff.mp hm).2] at same
    cases same
    rw [fixed] at appendable
    cases appendable
  obtain ⟨arena, hm⟩ := node_eq_ok_iff.mp hm
  refine node_eq_ok_iff.mpr ⟨arena, ?_⟩
  rw [appended, Array.getElem?_modify, if_neg (Ne.symm ne), hm]

omit [Scalar F] in
/-- The branches after one of them got one more result. -/
theorem branches_filled (h : a.Conditional n sk results) (hb : sk.branches[k]? = some b)
    (hl : results[k]? = some l) (hr : a.Guards r b.node w) (hw : a.IsWrite w)
    (new : ∀ (j : Nat) (l' : List NodeRef), results[j]? = some l' → ∀ r' ∈ l', r'.index < r.index) :
    (a.appended (follower sk k) (.node r)).Branches n sk.branches (results.set k (l ++ [r])) where
  length_eq := by rw [List.length_set, h.length_eq]
  branch {j b'} hb' := by
    obtain ⟨mf, pre, hmf, -, -, args, distinct⟩ := follower_node h hb hl
    obtain ⟨m, pre', test, start, hm, hstart, guard, args', sel⟩ := h.branch hb'
    have guard' : (a.appended (follower sk k) (.node r)).Guard start m.kind pre' test := by
      generalize m.kind = kind at guard
      cases guard with
      | startIf hc kind => exact .startIf (node_filled h hb hl hc (by rw [kind]; rfl)) kind
      | elseIf hc kind => exact .elseIf (node_filled h hb hl hc (by rw [kind]; rfl)) kind
      | otherwise => exact .otherwise
    by_cases follows : b'.node.index = (follower sk k).index
    · have j_eq := distinct j b' hb' follows
      have same : b'.node = follower sk k := by
        rw [follower, ← j_eq, hb']
        rfl
      refine ⟨{ m with args := m.args ++ [.node r] }, pre', test, start,
        same ▸ node_appended_self hm, hstart, guard', ?_, sel⟩
      have here : previous results j = l := by
        rw [j_eq, previous, List.getD_eq_getElem?_getD, hl, Option.getD_some]
      rw [j_eq, previous_set_self (List.getElem?_eq_some_iff.mp hl).1, List.map_append,
        ← List.append_assoc, ← here, ← args']
      rfl
    · obtain ⟨arena, hm⟩ := node_eq_ok_iff.mp hm
      refine ⟨m, pre', test, start, node_eq_ok_iff.mpr ⟨arena, ?_⟩, hstart, guard', ?_, sel⟩
      · rw [appended, Array.getElem?_modify, if_neg (Ne.symm follows), hm]
      · rw [args', previous_set_ne]
        rintro rfl
        exact follows (by rw [follower, hb']; rfl)
  result {j b' l'} hb' hl' r' hr' := by
    rw [List.getElem?_set] at hl'
    split at hl'
    case isTrue eq =>
        subst eq
        cases hb.symm.trans hb'
        rw [Option.ite_none_right_eq_some] at hl'
        cases hl'.2
        rcases List.mem_append.mp hr' with hr' | hr'
        · obtain ⟨m, w', hm, kind, args, mw, hmw, kindw⟩ := h.result hb hl r' hr'
          exact ⟨m, w', node_filled h hb hl hm (by rw [kind]; rfl), kind, args, mw,
            node_filled h hb hl hmw (by rw [kindw]; rfl), kindw⟩
        · cases List.mem_singleton.mp hr'
          obtain ⟨m, hm, kind, args⟩ := hr
          obtain ⟨mw, hmw, kindw⟩ := hw
          exact ⟨m, w, node_filled h hb hl hm (by rw [kind]; rfl), kind, args, mw,
            node_filled h hb hl hmw (by rw [kindw]; rfl), kindw⟩
    case isFalse =>
        obtain ⟨m, w', hm, kind, args, mw, hmw, kindw⟩ := h.result hb' hl' r' hr'
        exact ⟨m, w', node_filled h hb hl hm (by rw [kind]; rfl), kind, args, mw,
          node_filled h hb hl hmw (by rw [kindw]; rfl), kindw⟩
  nonempty {j l'} hl' := by
    rw [List.getElem?_set] at hl'
    split at hl'
    case isTrue =>
        rw [Option.ite_none_right_eq_some] at hl'
        cases hl'.2
        exact List.append_ne_nil_of_right_ne_nil _ (List.cons_ne_nil _ _)
    case isFalse => exact h.nonempty hl'
  ascending := h.ascending
  sorted {j l'} hl' := by
    rw [List.getElem?_set] at hl'
    split at hl'
    case isTrue =>
        rw [Option.ite_none_right_eq_some] at hl'
        cases hl'.2
        refine List.pairwise_append.mpr ⟨h.sorted hl, List.pairwise_singleton _ _, ?_⟩
        intro r' hr' r'' hr''
        cases List.mem_singleton.mp hr''
        exact new k l hl r' hr'
    case isFalse => exact h.sorted hl'

omit [Scalar F] in
/-- A conditional after one branch got one more result. -/
theorem conditional_filled (h : a.Conditional n sk results) (hb : sk.branches[k]? = some b)
    (hl : results[k]? = some l) (hr : a.Guards r b.node w) (hw : a.IsWrite w)
    (new : ∀ (j : Nat) (l' : List NodeRef), results[j]? = some l' → ∀ r' ∈ l', r'.index < r.index) :
    (a.appended (follower sk k) (.node r)).Conditional n sk (results.set k (l ++ [r])) where
  toBranches := branches_filled h hb hl hr hw new
  inhabited := h.inhabited
  endIf := by
    obtain ⟨m, hm, kind, args⟩ := h.endIf
    rw [List.length_set]
    cases next : sk.branches[k + 1]? with
    | none =>
        have eq : follower sk k = sk.endIf := by simp [follower, next]
        have lt := (List.getElem?_eq_some_iff.mp hl).1
        have len : results.length = k + 1 := by
          have := List.getElem?_eq_none_iff.mp next
          have := h.length_eq
          omega
        have here : previous results (k + 1) = l := by
          rw [previous, List.getD_eq_getElem?_getD, hl, Option.getD_some]
        refine ⟨{ m with args := m.args ++ [.node r] }, ?_, kind, ?_⟩
        · rw [eq]
          exact node_appended_self hm
        rw [len, previous_set_self lt, List.map_append, ← here, ← len, ← args]
        rfl
    | some b' =>
        have ne : sk.endIf.index ≠ (follower sk k).index := by
          intro same
          obtain ⟨m', _, _, _, hm', -, guard, -⟩ := h.branch next
          have at_ := (node_eq_ok_iff.mp hm).2
          rw [same, follower, next] at at_
          cases (node_eq_ok_iff.mp hm').2.symm.trans at_
          rcases guard.isBranch with kind' | kind' | kind' <;> rw [kind] at kind' <;> cases kind'
        obtain ⟨arena, hm⟩ := node_eq_ok_iff.mp hm
        refine ⟨m, node_eq_ok_iff.mpr ⟨arena, ?_⟩, kind, ?_⟩
        · rw [appended, Array.getElem?_modify, if_neg (Ne.symm ne), hm]
        · have lt := (List.getElem?_eq_some_iff.mp next).1
          rw [args, previous_set_ne]
          rw [h.length_eq]
          omega

/-- One more result for one branch. -/
theorem ends_fill (h : a.Conditional n sk results) (tiered : a.TieredFrom base)
    (le : base ≤ a.size) (fresh : base ≤ (follower sk k).index) (hb : sk.branches[k]? = some b)
    (hl : results[k]? = some l) (hw : a.IsWrite w) :
    Ends (do
      let result ← Recording.push .branchResult [.node b.node, .node w] []
      Recording.reporting (Arena.append (follower sk k) [.node result]) : Recording F Unit) a
      fun _ a' => ∃ r, a'.Guards r b.node w ∧ a'.Conditional n sk (results.set k (l ++ [r])) ∧
        a.Keeps (fun i _ => i ≠ (follower sk k).index) a' ∧ a'.TieredFrom base := by
  obtain ⟨mb, _, _, _, hmb, -, guardb, -⟩ := h.branch hb
  obtain ⟨mw, hmw, kindw⟩ := hw
  have tierb := guardb.tier
  refine Worlds.Ends.bind (yields_push_new (by simp)
    ((fits_node hmb (by rw [tierb]; decide)).cons (fits_node hmw (by rw [kindw]; decide)))) ?_
  rintro r a₁ ⟨le₁, index, hr, -⟩
  have h₁ : a₁.Conditional n sk results :=
    h.keep le₁ (fun _ _ _ => trivial) (fun _ _ _ _ => trivial) fun _ _ => trivial
  have tiered₁ : a₁.TieredFrom base := tieredFrom_of_le le₁ le tiered
  have hr₁ : a₁.Guards r b.node w := ⟨_, hr, rfl, rfl⟩
  have hw₁ : a₁.IsWrite w := ⟨mw, Keeps.node_eq le₁ hmw trivial, kindw⟩
  have new (j : Nat) (l' : List NodeRef) (hl' : results[j]? = some l') (r' : NodeRef)
      (hr' : r' ∈ l') : r'.index < r.index := by
    obtain ⟨b', hb'⟩ := h.getElem?_branches hl'
    obtain ⟨m, w', hm, -⟩ := h.result hb' hl' r' hr'
    exact index ▸ lt_of_node hm
  obtain ⟨mf, pre, hmf, appendable, tier, -⟩ := follower_node h₁ hb hl
  have fits : a₁.Fits mf.kind [.node r] := fits_node hr (by rw [tier]; exact le_rfl)
  have acyclic := result_reaches h₁ tiered₁ fresh hb hl hw₁ hr₁
  refine Recording.ends_reporting ((ends_append hmf appendable fits acyclic).mono ?_)
  rintro _ _ rfl
  have keeps := keeps_appended hmf appendable fits
  refine ⟨r, ⟨_, node_filled h₁ hb hl hr rfl, rfl, rfl⟩, conditional_filled h₁ hb hl hr₁ hw₁ new,
    (keeps_of_le le₁).trans keeps, keeps.tieredFrom (le.trans (Keeps.size_le le₁)) ?_ tiered₁⟩
  exact fun i m _ lt _ => Nat.ne_of_lt (lt.trans_le fresh)

/-- The positions other than those of nodes that follow a branch. -/
def NotFollower (sk : Skeleton) (i : Nat) : Prop :=
  ∀ k < sk.branches.length, i ≠ (follower sk k).index

theorem getElem?_followers (sk : Skeleton) {k : Nat} (hk : k < sk.branches.length) :
    ((sk.branches.map Branch.node).tail ++ [sk.endIf])[k]? = some (follower sk k) := by
  rw [List.getElem?_append, List.length_tail, List.length_map, List.getElem?_tail,
    List.getElem?_map, follower]
  split
  case isTrue lt =>
      rw [List.getElem?_eq_getElem (by omega)]
      rfl
  case isFalse ge =>
      have last : sk.branches[k + 1]? = none := List.getElem?_eq_none (by omega)
      have zero : k - (sk.branches.length - 1) = 0 := by omega
      rw [last, zero]
      rfl

/-- One more result for every branch. -/
theorem ends_extend {writes : List NodeRef} (h : a.Conditional n sk results)
    (tiered : a.TieredFrom base) (le : base ≤ a.size) (fresh : ∀ k, base ≤ (follower sk k).index)
    (len : sk.branches.length = writes.length) (hw : ∀ w ∈ writes, a.IsWrite w) :
    Ends (extend sk writes : Recording F Unit) a fun _ a' => ∃ results',
      a'.Conditional n sk results' ∧ Extended a' sk.branches writes results results' ∧
        a.Keeps (fun i _ => NotFollower sk i) a' ∧ a'.TieredFrom base := by
  have element {k : Nat} {b : Branch} {f w : NodeRef} (hx : ((sk.branches.zip
      ((sk.branches.map Branch.node).tail ++ [sk.endIf])).zip writes)[k]? = some ((b, f), w)) :
      sk.branches[k]? = some b ∧ f = follower sk k ∧ writes[k]? = some w := by
    obtain ⟨hbf, hw⟩ := List.getElem?_zip_eq_some.mp hx
    obtain ⟨hb, hf⟩ := List.getElem?_zip_eq_some.mp hbf
    rw [getElem?_followers sk (List.getElem?_eq_some_iff.mp hb).1] at hf
    exact ⟨hb, (Option.some.inj hf).symm, hw⟩
  have total : ((sk.branches.zip ((sk.branches.map Branch.node).tail ++ [sk.endIf])).zip
      writes).length = sk.branches.length := by
    have := List.length_pos_iff.mpr h.inhabited
    simp only [List.length_zip, List.length_append, List.length_tail, List.length_map,
      List.length_singleton]
    omega
  refine Worlds.Ends.mono (ends_forM (fun done a' => ∃ results', a'.Conditional n sk results' ∧
    a.Keeps (fun i _ => NotFollower sk i) a' ∧ a'.TieredFrom base ∧
    (∀ (j : Nat) (b : Branch) (w : NodeRef), j < done.length → sk.branches[j]? = some b →
      writes[j]? = some w → ∃ r, results'[j]? = some (results.getD j [] ++ [r]) ∧
        a'.Guards r b.node w) ∧
    ∀ j, done.length ≤ j → results'[j]? = results[j]?)
    ⟨results, h, Keeps.refl _ _, tiered, fun j _ _ lt => absurd lt (Nat.not_lt_zero j),
      fun _ _ => rfl⟩ ?_) ?_
  · rintro done ⟨⟨b, f⟩, w⟩ rest a' split ⟨results', h', keeps, tiered', filled, rest_eq⟩
    have here : ((sk.branches.zip ((sk.branches.map Branch.node).tail ++ [sk.endIf])).zip
        writes)[done.length]? = some ((b, f), w) := by
      rw [split, List.getElem?_append_right le_rfl, Nat.sub_self]
      rfl
    obtain ⟨hb, rfl, hw'⟩ := element here
    obtain ⟨l, hl⟩ := h'.getElem?_results hb
    have hw'' : a'.IsWrite w := by
      obtain ⟨m, hm, kind⟩ := hw w (List.mem_of_getElem? hw')
      obtain ⟨arena, hm⟩ := node_eq_ok_iff.mp hm
      obtain ⟨m', hm', kind'⟩ := keeps.kind hm
      exact ⟨m', node_eq_ok_iff.mpr ⟨arena.trans keeps.id_eq.symm, hm'⟩, kind'.trans kind⟩
    refine (ends_fill h' tiered' (le.trans keeps.size_le) (fresh _) hb hl hw'').mono ?_
    rintro _ a'' ⟨r, guards, h'', keeps', tiered''⟩
    refine ⟨_, h'', keeps.trans (keeps'.mono fun i _ free => free _
      (List.getElem?_eq_some_iff.mp hb).1), tiered'', fun j b' w' lt hb' hw₁ => ?_,
      fun j later => ?_⟩
    · rw [List.length_append, List.length_singleton] at lt
      by_cases eq : done.length = j
      · subst eq
        cases hb.symm.trans hb'
        cases hw'.symm.trans hw₁
        refine ⟨r, ?_, guards⟩
        rw [List.getElem?_set_self (List.getElem?_eq_some_iff.mp hl).1, List.getD_eq_getElem?_getD,
          ← rest_eq _ le_rfl, hl, Option.getD_some]
      · obtain ⟨r', hr', m, hm, kind, args⟩ := filled j b' w' (by omega) hb' hw₁
        refine ⟨r', (List.getElem?_set_ne eq).trans hr', ?_⟩
        obtain ⟨arena, hm⟩ := node_eq_ok_iff.mp hm
        obtain ⟨mf, _, hmf, appendable, -⟩ := follower_node h' hb hl
        refine ⟨m, keeps'.node_eq (node_eq_ok_iff.mpr ⟨arena, hm⟩) ?_, kind, args⟩
        intro same
        have at_ := (node_eq_ok_iff.mp hmf).2
        rw [← same, hm] at at_
        cases at_
        rw [kind] at appendable
        cases appendable
    · rw [List.length_append, List.length_singleton] at later
      rw [List.getElem?_set_ne (by omega), rest_eq j (by omega)]
  · rintro _ a' ⟨results', h', keeps, tiered', filled, -⟩
    refine ⟨results', h', ⟨fun {k b w} hb hw => filled k b w ?_ hb hw⟩, keeps, tiered'⟩
    rw [total]
    exact (List.getElem?_eq_some_iff.mp hb).1

end LoopScope

end LoopDiff
