import LoopDiff.Failure

/-!
# LoopDiff.Graph.Search

Searches over numbered nodes: from a position on (`findFrom?`), and depth
first along the edges of a graph (`explore`).

`explore` marks everything that the nodes on the stack lead to.  A node
is expanded when it is first taken off the stack, and its successors go
on top with the last one uppermost; a node that is marked already is taken
off and no more.  The successor function may fail, and the first failure met
in this order ends the search.

Every expansion marks a node for good, so the search ends on any graph,
cyclic ones included.
-/

namespace LoopDiff

/-- The first position, from `i` on, whose element passes a test. -/
def findFrom? {α : Type} (xs : Array α) (test : α → Bool) (i : Nat) : Option Nat :=
  if h : i < xs.size then
    if test xs[i] then some i else findFrom? xs test (i + 1)
  else none
termination_by xs.size - i

/-- Marking an unmarked node leaves fewer unmarked ones. -/
theorem count_false_set_lt {seen : Array Bool} {i : Nat} (h : i < seen.size)
    (unseen : seen[i] = false) :
    (seen.set i true).count false < seen.count false := by
  have pos : 0 < seen.count false :=
    Array.count_pos_iff.2 (unseen ▸ Array.getElem_mem h)
  rw [Array.count_set h, unseen, beq_self_eq_true, if_pos rfl, if_neg (by decide)]
  omega

/-- What is left of a stack without the marked nodes on top. -/
def pending (seen : Array Bool) (stack : List Nat) : List Nat :=
  stack.dropWhile fun i => seen.getD i false

theorem unmarked_of_pending {seen : Array Bool} {stack rest : List Nat} {i : Nat}
    (h : pending seen stack = i :: rest) : seen.getD i false = false := by
  have top := List.head?_dropWhile_not (fun i => seen.getD i false) stack
  rw [← pending, h] at top
  simpa using top

/-- Marks what the nodes on the stack lead to through `next`. -/
def explore (next : Nat → Except Failure (List Nat)) (seen : Array Bool) (stack : List Nat) :
    Except Failure (Array Bool) :=
  match top : pending seen stack with
  | [] => .ok seen
  | i :: rest =>
    if inside : i < seen.size then
      match next i with
      | .error e => .error e
      | .ok more => explore next (seen.set i true) (more.reverse ++ rest)
    else .error (.crash none)
termination_by seen.count false
decreasing_by
  exact count_false_set_lt inside ((Array.getElem_eq_getD false).trans (unmarked_of_pending top))

end LoopDiff
