import LoopDiff.Proofs.Graph.Extension
import LoopDiff.Proofs.Maps

/-!
# LoopDiff.Proofs.Graph.Search

What a search along arguments finds.

A search that starts inside a closed set of nodes, one that the successors
of its members belong to, succeeds and stays inside the set; and what it
marks is closed itself.  The first half is how a search is shown not to
reach a node, the second how it is shown to reach all it should.

What a search that succeeds does turn by turn is a `SearchRun`; what one turn
keeps is shown once for each kind of turn (`SearchRun.explored`).
-/

namespace LoopDiff

/-- A set of positions that a search does not leave. -/
def ClosedUnder (next : Nat → Except Failure (List Nat)) (P : Nat → Prop) : Prop :=
  ∀ i, P i → ∃ l, next i = .ok l ∧ ∀ j ∈ l, P j

theorem getD_set_true {seen : Array Bool} {i : Nat} (h : i < seen.size) (j : Nat) :
    (seen.set i true).getD j false = true ↔ seen.getD j false = true ∨ j = i := by
  rw [Array.getD_eq_getD_getElem?, Array.getD_eq_getD_getElem?, Array.getElem?_set]
  by_cases eq : i = j
  · subst eq
    simp
  · simp [eq, Ne.symm eq]

/-! ## Turns -/

section

variable {next : Nat → Except Failure (List Nat)} {P : Nat → Prop} {seen seen' : Array Bool}
  {stack rest : List Nat} {i : Nat}

theorem pending_cons (i : Nat) (rest : List Nat) :
    pending seen (i :: rest) = if seen.getD i false then pending seen rest else i :: rest := by
  rw [pending, List.dropWhile_cons]
  rfl

theorem explore_nil (done : pending seen stack = []) : explore next seen stack = .ok seen := by
  rw [explore]
  split
  case h_1 => rfl
  case h_2 top => cases done.symm.trans top

theorem explore_cons (top : pending seen stack = i :: rest) (inside : i < seen.size) :
    explore next seen stack =
      next i >>= fun more => explore next (seen.set i true) (more.reverse ++ rest) := by
  rw [explore]
  split
  case h_1 done => cases done.symm.trans top
  case h_2 top' =>
      cases top.symm.trans top'
      rw [dif_pos inside]
      cases next i <;> rfl

theorem explore_outside (top : pending seen stack = i :: rest) (outside : ¬i < seen.size) :
    explore next seen stack = .error (.crash none) := by
  rw [explore]
  split
  case h_1 done => cases done.symm.trans top
  case h_2 top' =>
      cases top.symm.trans top'
      rw [dif_neg outside]

/-- The turns of a search that succeeds, from what is marked and the stack to
the marks in the end. -/
inductive SearchRun (next : Nat → Except Failure (List Nat)) (seen' : Array Bool) :
    Array Bool → List Nat → Prop
  | done : SearchRun next seen' seen' []
  | skip {seen : Array Bool} {i : Nat} {rest : List Nat} (inside : i < seen.size)
      (known : seen[i] = true) (later : SearchRun next seen' seen rest) :
      SearchRun next seen' seen (i :: rest)
  | mark {seen : Array Bool} {i : Nat} {rest more : List Nat} (inside : i < seen.size)
      (unknown : seen[i] = false) (succeeds : next i = .ok more)
      (later : SearchRun next seen' (seen.set i true) (more.reverse ++ rest)) :
      SearchRun next seen' seen (i :: rest)

/-- Marked nodes on top of the stack take one turn each. -/
theorem SearchRun.of_pending (run : SearchRun next seen' seen (pending seen stack)) :
    SearchRun next seen' seen stack := by
  induction stack with
  | nil => exact run
  | cons i rest ih =>
      rw [pending_cons] at run
      split at run
      case isTrue known =>
          have inside : i < seen.size := by
            by_contra outside
            simp [Array.getElem?_eq_none (Nat.le_of_not_lt outside)] at known
          exact .skip inside ((Array.getElem_eq_getD false).trans known) (ih run)
      case isFalse => exact run

theorem searchRun_of_explore (h : explore next seen stack = .ok seen') :
    SearchRun next seen' seen stack := by
  refine .of_pending ?_
  induction seen, stack using explore.induct next with
  | case1 seen stack done =>
      cases (explore_nil done).symm.trans h
      exact done ▸ .done
  | case2 seen stack i rest top inside e fails =>
      rw [explore_cons top inside, fails] at h
      cases h
  | case3 seen stack i rest top inside more succeeds ih =>
      rw [explore_cons top inside, succeeds] at h
      have unknown : seen[i] = false :=
        (Array.getElem_eq_getD false).trans (unmarked_of_pending top)
      exact top ▸ .mark inside unknown succeeds (.of_pending (ih h))
  | case4 seen stack i rest top outside => cases (explore_outside top outside).symm.trans h

theorem mem_of_pending (top : pending seen stack = i :: rest) : ∀ j ∈ i :: rest, j ∈ stack :=
  fun _ hj => List.dropWhile_subset _ (top ▸ hj)

/-- A search that starts in a closed set succeeds. -/
theorem exists_explore (closed : ClosedUnder next P) (inside : ∀ i, P i → i < seen.size)
    (hstack : ∀ i ∈ stack, P i) : ∃ seen', explore next seen stack = .ok seen' := by
  induction seen, stack using explore.induct next with
  | case1 seen stack done => exact ⟨seen, explore_nil done⟩
  | case2 seen stack i rest top lt e fails =>
      obtain ⟨l, hl, -⟩ := closed i (hstack i (mem_of_pending top i (List.mem_cons_self ..)))
      cases fails.symm.trans hl
  | case3 seen stack i rest top lt more succeeds ih =>
      rw [explore_cons top lt, succeeds]
      obtain ⟨l, hl, hP⟩ := closed i (hstack i (mem_of_pending top i (List.mem_cons_self ..)))
      cases succeeds.symm.trans hl
      refine ih (fun j hj => by simpa using inside j hj) fun j hj => ?_
      rcases List.mem_append.mp hj with hj | hj
      · exact hP j (List.mem_reverse.mp hj)
      · exact hstack j (mem_of_pending top j (List.mem_cons_of_mem _ hj))
  | case4 seen stack i rest top outside =>
      exact absurd (inside i (hstack i (mem_of_pending top i (List.mem_cons_self ..)))) outside

/-! ## Marks -/

/-- What is marked after a search through `P` from `stack`. -/
structure Explored (next : Nat → Except Failure (List Nat)) (P : Nat → Prop) (seen : Array Bool)
    (stack : List Nat) (seen' : Array Bool) : Prop where
  size_eq : seen'.size = seen.size
  inside {i : Nat} : seen'.getD i false = true → seen.getD i false = true ∨ P i
  stays {i : Nat} : seen.getD i false = true → seen'.getD i false = true
  root {i : Nat} : i ∈ stack → seen'.getD i false = true
  closed (start : ∀ i l, seen.getD i false = true → next i = .ok l →
      ∀ j ∈ l, seen.getD j false = true ∨ j ∈ stack) {i : Nat} {l : List Nat} :
    seen'.getD i false = true → next i = .ok l → ∀ j ∈ l, seen'.getD j false = true

theorem SearchRun.explored (run : SearchRun next seen' seen stack)
    (closed : ∀ i l, P i → next i = .ok l → ∀ j ∈ l, P j) (hstack : ∀ i ∈ stack, P i) :
    Explored next P seen stack seen' := by
  induction run with
  | done =>
      exact ⟨rfl, .inl, id, fun h => (List.not_mem_nil h).elim,
        fun start i l hi hl j hj => (start i l hi hl j hj).resolve_right List.not_mem_nil⟩
  | @skip seen i rest inside known _ ih =>
      have hi : seen.getD i false = true := (Array.getElem_eq_getD false).symm.trans known
      have e := ih fun j hj => hstack j (List.mem_cons_of_mem _ hj)
      refine ⟨e.size_eq, e.inside, e.stays, fun {j} hj => ?_, fun start => e.closed ?_⟩
      · rcases List.mem_cons.mp hj with rfl | hj
        · exact e.stays hi
        · exact e.root hj
      · intro j l hj hl k hk
        rcases start j l hj hl k hk with hk | hk
        · exact .inl hk
        · rcases List.mem_cons.mp hk with rfl | hk
          · exact .inl hi
          · exact .inr hk
  | @mark seen i rest more inside unknown succeeds _ ih =>
      have hi := hstack i (List.mem_cons_self ..)
      have e : Explored next P (seen.set i true) (more.reverse ++ rest) seen' := by
        refine ih fun j hj => ?_
        rcases List.mem_append.mp hj with hj | hj
        · exact closed i more hi succeeds j (List.mem_reverse.mp hj)
        · exact hstack j (List.mem_cons_of_mem _ hj)
      refine ⟨by simpa using e.size_eq, fun {j} hj => ?_, fun {j} hj => ?_, fun {j} hj => ?_,
        fun start => e.closed ?_⟩
      · rcases e.inside hj with hj | hj
        · rcases (getD_set_true inside j).mp hj with hj | rfl
          · exact .inl hj
          · exact .inr hi
        · exact .inr hj
      · exact e.stays ((getD_set_true inside j).mpr (.inl hj))
      · rcases List.mem_cons.mp hj with rfl | hj
        · exact e.stays ((getD_set_true inside j).mpr (.inr rfl))
        · exact e.root (List.mem_append_right _ hj)
      · intro j l hj hl k hk
        rcases (getD_set_true inside j).mp hj with hj | rfl
        · rcases start j l hj hl k hk with hk | hk
          · exact .inl ((getD_set_true inside k).mpr (.inl hk))
          · rcases List.mem_cons.mp hk with rfl | hk
            · exact .inl ((getD_set_true inside k).mpr (.inr rfl))
            · exact .inr (List.mem_append_right _ hk)
        · cases succeeds.symm.trans hl
          exact .inr (List.mem_append_left _ (List.mem_reverse.mpr hk))

/-- What a search that starts in a closed set marks. -/
theorem yields_explore (closed : ClosedUnder next P) (inside : ∀ i, P i → i < seen.size)
    (hstack : ∀ i ∈ stack, P i) :
    Yields (explore next seen stack) () fun seen' _ => Explored next P seen stack seen' := by
  obtain ⟨seen', run⟩ := exists_explore closed inside hstack
  refine yields_ok run ((searchRun_of_explore run).explored (fun i l hi hl => ?_) hstack)
  obtain ⟨l', hl', hP⟩ := closed i hi
  cases hl.symm.trans hl'
  exact hP

end

namespace Arena

variable {F : Type} {a : Arena F}

/-- A node is not reached from a closed set that it does not belong to. -/
theorem reaches_eq_false {P : Nat → Prop} {start target : NodeRef}
    (closed : ClosedUnder a.successors P) (inside : ∀ i, P i → i < a.size)
    (hstart : P start.index) (htarget : ¬P target.index) :
    a.reaches start target = .ok false := by
  have ne : start.index ≠ target.index := fun eq => htarget (eq ▸ hstart)
  have search : Yields (a.reachable [start]) () fun seen _ =>
      seen.getD target.index false = false := by
    refine (yields_explore closed (by simpa [size] using inside) (by simpa using hstart)).mono ?_
    intro seen _ _ e
    refine Bool.eq_false_iff.mpr fun marked => ?_
    rcases e.inside marked with hs | hP
    · cases (getD_replicate ..).symm.trans hs
    · exact htarget hP
  obtain ⟨seen, run, out⟩ := exists_ok_of_yields search
  rw [reaches, if_neg ne, run]
  exact congrArg Except.ok out

theorem mem_argIndices {n : Node F} {j : Nat} :
    j ∈ n.argIndices ↔ ∃ r, .node r ∈ n.args ∧ r.index = j := by
  rw [Node.argIndices, List.mem_filterMap]
  constructor
  · rintro ⟨v, hv, eq⟩
    cases v with
    | const x => cases eq
    | node r => exact ⟨r, hv, Option.some.inj eq⟩
  · rintro ⟨r, hr, eq⟩
    exact ⟨.node r, hr, congrArg some eq⟩

/-- What holds of the arguments of a node holds of its successors. -/
theorem exists_successors {P : Nat → Prop} {i : Nat} {n : Node F} (hn : a.nodes[i]? = some n)
    (all : ∀ r, .node r ∈ n.args → P r.index) :
    ∃ is, a.successors i = .ok is ∧ ∀ j ∈ is, P j := by
  refine ⟨n.argIndices, by rw [successors, hn]; rfl, fun j hj => ?_⟩
  obtain ⟨r, hr, rfl⟩ := mem_argIndices.mp hj
  exact all r hr

/-- What comes before a position and the nodes up to a tier are closed. -/
theorem closed_tierFrom {base : Nat} (tiered : a.TieredFrom base) (tier : Nat) :
    ClosedUnder a.successors fun i =>
      ∃ n, a.nodes[i]? = some n ∧ (i < base ∨ n.kind.tier ≤ tier) := by
  rintro i ⟨n, hn, le⟩
  refine exists_successors hn fun r hr => ?_
  obtain ⟨-, m, hm, before⟩ := tiered i n hn r hr
  exact ⟨m, hm, by omega⟩

/-- The nodes of a tiered arena up to a tier are closed. -/
theorem closed_tier (tiered : a.Tiered) (tier : Nat) :
    ClosedUnder a.successors fun i => ∃ n, a.nodes[i]? = some n ∧ n.kind.tier ≤ tier := by
  simpa only [Nat.not_lt_zero, false_or] using closed_tierFrom (tieredFrom_zero.mpr tiered) tier

end Arena

end LoopDiff
