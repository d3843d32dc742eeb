import LoopDiff.Proofs.Graph.Termination

/-!
# LoopDiff.Proofs.Graph.Seeking

Searches for one node, and what all searches find.

Whether a node leads to another one can be told from everything that it leads
to (`Arena.reaches`), or by a search that stops when the other node comes off
the stack (`seek`).  Up to there the two take the same steps, and after that
nothing is unmarked again, so they give the same answer
(`SearchRun.seek_eq`).

An arena that operations led to owns its arguments, appended ones included.
So no search in it fails, and each finds what paths along arguments lead to
and nothing else (`Arena.Reached.searches_exact`).
-/

namespace LoopDiff

/-! ## Stopping early -/

/-- Whether the nodes on the stack lead to `target` through `next`.  The search
marks what it takes off the stack, and stops at the target.  It ends on any
graph, as every step marks a node for good or shortens the stack. -/
def seek (next : Nat → Except Failure (List Nat)) (target : Nat) (seen : Array Bool)
    (stack : List Nat) : Except Failure Bool :=
  match stack with
  | [] => .ok false
  | i :: rest =>
    if i = target then .ok true
    else if h : i < seen.size then
      match unseen : seen[i] with
      | true => seek next target seen rest
      | false =>
        match next i with
        | .error e => .error e
        | .ok more => seek next target (seen.set i true) (more.reverse ++ rest)
    else .error (.crash none)
termination_by (seen.count false, stack.length)
decreasing_by
  · exact Prod.Lex.right _ (Nat.lt_succ_self _)
  · exact Prod.Lex.left _ _ (count_false_set_lt h unseen)

section

variable {next : Nat → Except Failure (List Nat)} {seen seen' : Array Bool}
  {stack rest : List Nat} {i target : Nat}

theorem seek_marked (ne : i ≠ target) (inside : i < seen.size) (known : seen[i] = true) :
    seek next target seen (i :: rest) = seek next target seen rest := by
  rw [seek, if_neg ne, dif_pos inside]
  split
  case h_1 => rfl
  case h_2 unknown => cases known.symm.trans unknown

theorem seek_unmarked (ne : i ≠ target) (inside : i < seen.size) (unknown : seen[i] = false) :
    seek next target seen (i :: rest) =
      next i >>= fun more => seek next target (seen.set i true) (more.reverse ++ rest) := by
  rw [seek, if_neg ne, dif_pos inside]
  split
  case h_1 known => cases known.symm.trans unknown
  case h_2 => cases next i <;> rfl

/-- A search that stops at a node tells whether a search that does not stop
marks it. -/
theorem SearchRun.seek_eq (run : SearchRun next seen' seen stack)
    (new : seen.getD target false = false) :
    seek next target seen stack = .ok (seen'.getD target false) := by
  induction run with
  | done => rw [seek, new]
  | @skip seen i rest inside known _ ih =>
      have ne : i ≠ target := by
        rintro rfl
        cases ((Array.getElem_eq_getD false).symm.trans known).symm.trans new
      rw [seek_marked ne inside known]
      exact ih new
  | @mark seen i rest more inside unknown succeeds later ih =>
      by_cases here : i = target
      · -- the search that goes on does not lose the mark that it sets now
        have explored := later.explored (P := fun _ => True) (by simp) (by simp)
        have found := explored.stays ((getD_set_true inside i).mpr (.inr rfl))
        rw [seek, if_pos here, ← here, found]
      · have new' : (seen.set i true).getD target false = false := by
          rw [Bool.eq_false_iff, ne_eq, getD_set_true inside, new]
          simp [Ne.symm here]
        rw [seek_unmarked here inside unknown, succeeds]
        exact ih new'

end

namespace Arena

variable {F : Type} {a : Arena F}

/-- The search from one node that stops at another one gives what the full
search tells. -/
theorem seek_eq_of_reaches {start target : NodeRef} {b : Bool}
    (h : a.reaches start target = .ok b) :
    seek a.successors target.index (Array.replicate a.size false) [start.index] = .ok b := by
  rw [reaches] at h
  split at h
  case isTrue here =>
      cases h
      rw [seek, if_pos here]
  case isFalse =>
      obtain ⟨live, run, h⟩ := bind_eq_ok h
      cases h
      exact (searchRun_of_explore run).seek_eq (getD_replicate ..)

variable [Scalar F]

/-- The searches of an arena that any operations led to end with an answer, and
the answer is exact.  A node reaches another if and only if a path along
arguments leads there, also by the search that stops at it; and what some
nodes reach, repeated ones included, is marked, and no other node. -/
theorem Reached.searches_exact (h : a.Reached) :
    (∀ start target : NodeRef, a.owns start = true → a.owns target = true →
      ∃ b, a.reaches start target = .ok b ∧
        seek a.successors target.index (Array.replicate a.size false) [start.index] = .ok b ∧
        (b = true ↔ a.Path start.index target.index)) ∧
    ∀ roots : List NodeRef, (∀ r ∈ roots, a.owns r = true) →
      ∃ live, a.reachable roots = .ok live ∧ live.size = a.size ∧
        ∀ i, live.getD i false = true ↔ ∃ r ∈ roots, a.Path r.index i := by
  have owned := h.grounded.owned
  constructor
  · intro start target own _
    obtain ⟨b, run, exact_⟩ := owned.reaches_eq (owns_iff.mp own).2 target
    exact ⟨b, run, seek_eq_of_reaches run, exact_⟩
  · intro roots own
    exact exists_ok_of_yields (owned.yields_reachable fun r hr => (owns_iff.mp (own r hr)).2)

/-- A sum that got more arguments later: a product twice, and a difference that
the product is an argument of. -/
def collected : List (Call ℚ) :=
  [.newIndependent 0 0, .push .accumulate [.node ⟨0, 0⟩] [0],
    .push (.op (.binary .mul)) [.node ⟨0, 0⟩, .node ⟨0, 0⟩] [],
    .push (.op (.binary .sub)) [.node ⟨0, 2⟩, .node ⟨0, 0⟩] [],
    .append ⟨0, 1⟩ [.node ⟨0, 2⟩, .node ⟨0, 3⟩, .node ⟨0, 2⟩]]

/-- The sum leads to the later difference, and the difference does not lead back.
From the difference and twice the product, all but the sum is marked. -/
theorem searches_collected : ((empty 0).after collected).Reached ∧
    ((empty 0).after collected).Path 1 3 ∧ ¬((empty 0).after collected).Path 3 1 ∧
    ((empty 0).after collected).reachable [⟨0, 2⟩, ⟨0, 3⟩, ⟨0, 2⟩] =
      .ok #[true, false, true, true] ∧
    ∃ r ∈ [(⟨0, 2⟩ : NodeRef), ⟨0, 3⟩, ⟨0, 2⟩], ((empty 0).after collected).Path r.index 0 := by
  have reached := reached_after 0 collected
  obtain ⟨reach, marks⟩ := reached.searches_exact
  obtain ⟨b, forth, -, there⟩ := reach ⟨0, 1⟩ ⟨0, 3⟩ (by decide +kernel) (by decide +kernel)
  obtain ⟨b', back, -, here⟩ := reach ⟨0, 3⟩ ⟨0, 1⟩ (by decide +kernel) (by decide +kernel)
  obtain ⟨live, run, -, marked⟩ := marks [⟨0, 2⟩, ⟨0, 3⟩, ⟨0, 2⟩] (by simp; decide +kernel)
  have forth' : ((empty 0).after collected).reaches ⟨0, 1⟩ ⟨0, 3⟩ = .ok true := by decide +kernel
  have back' : ((empty 0).after collected).reaches ⟨0, 3⟩ ⟨0, 1⟩ = .ok false := by decide +kernel
  have run' : ((empty 0).after collected).reachable [⟨0, 2⟩, ⟨0, 3⟩, ⟨0, 2⟩] =
      .ok #[true, false, true, true] := by decide +kernel
  cases forth.symm.trans forth'
  cases back.symm.trans back'
  cases run.symm.trans run'
  exact ⟨reached, there.mp rfl, fun path => absurd (here.mpr path) (by decide), run,
    (marked 0).mp rfl⟩

end Arena

end LoopDiff
