import Mathlib.Data.Set.Card
import LoopDiff.Proofs.Graph.History
import LoopDiff.Proofs.Graph.Lookup

/-!
# LoopDiff.Proofs.Graph.Descent

How an evaluation goes down a graph.

An evaluation of a node goes on to the nodes that it depends on.  Without
cycles there are fewer of these for each node on the way (`Arena.rank`), so a
descent is no deeper than the graph is large.

An evaluation may fail, on a graph with an operation where a loop belongs or
on inputs that are too short.  It goes astray if it fails since its own order
was wrong: a node was open already, or not there yet when it was needed, or
the descent did not end (`Failure.Astray`).  A computation that does not go
astray is on course, and what it ends with, if it ends with something, can be
used by what follows (`Eval.OnCourse`).
-/

namespace LoopDiff

variable {F α β : Type}

/-! ## Depth -/

namespace Arena

/-- The number of nodes that a node depends on. -/
noncomputable def rank (a : Arena F) (i : Nat) : Nat := {j | Relation.TransGen a.Edge i j}.ncard

/-- The arguments of every node are nodes of the arena, and no node depends on
itself. -/
structure Grounded (a : Arena F) : Prop where
  owned : a.Owned
  acyclic : a.Acyclic

variable {a : Arena F}

theorem Grounded.lt_of_transGen (grounded : a.Grounded) {i j : Nat}
    (h : Relation.TransGen a.Edge i j) : j < a.size := by
  cases h with
  | single edge => exact grounded.owned.lt_of_edge edge
  | tail _ edge => exact grounded.owned.lt_of_edge edge

theorem Grounded.dependencies_subset (grounded : a.Grounded) (i : Nat) :
    {j | Relation.TransGen a.Edge i j} ⊆ ↑(Finset.range a.size) :=
  fun _ h => Finset.mem_coe.mpr (Finset.mem_range.mpr (grounded.lt_of_transGen h))

theorem Grounded.rank_le (grounded : a.Grounded) (i : Nat) : a.rank i ≤ a.size := by
  have le := Set.ncard_le_ncard (grounded.dependencies_subset i)
  rwa [Set.ncard_coe_finset, Finset.card_range] at le

/-- A node depends on more nodes than those it depends on. -/
theorem Grounded.rank_lt (grounded : a.Grounded) {i j : Nat}
    (h : Relation.TransGen a.Edge i j) : a.rank j < a.rank i := by
  have finite := (Finset.finite_toSet _).subset (grounded.dependencies_subset i)
  refine Set.ncard_lt_ncard ⟨fun k hk => h.trans hk, fun sub => ?_⟩ finite
  exact grounded.acyclic j (sub h)

theorem Grounded.rank_lt_of_edge (grounded : a.Grounded) {i j : Nat} (h : a.Edge i j) :
    a.rank j < a.rank i :=
  grounded.rank_lt (.single h)

/-- An argument of a node that was looked up. -/
theorem edge_of_mem {r s : NodeRef} {n : Node F} (hn : a.node r = .ok n) (hs : .node s ∈ n.args) :
    a.Edge r.index s.index :=
  ⟨n, (node_eq_ok_iff.mp hn).2, mem_argIndices.mpr ⟨s, hs, rfl⟩⟩

theorem edge_of_getElem? {r s : NodeRef} {n : Node F} {k : Nat} (hn : a.node r = .ok n)
    (hs : n.args[k]? = some (.node s)) : a.Edge r.index s.index :=
  edge_of_mem hn (List.mem_of_getElem? hs)

theorem grounded_empty (id : Nat) : (empty id : Arena F).Grounded :=
  ⟨owned_empty id, acyclic_empty id⟩

theorem Steps.grounded [Scalar F] {shape : Node F → Prop} {a' : Arena F} (h : a.Steps shape a')
    (grounded : a.Grounded) : a'.Grounded :=
  ⟨h.owned grounded.owned, h.acyclic grounded.owned grounded.acyclic⟩

end Arena

/-! ## Going astray -/

/-- The failures of an evaluation whose own order was wrong. -/
inductive Failure.Astray : Failure → Prop where
  | endless (i : Nat) : Astray (.crash (some (.invalidGraph (.dependsOnItself i))))
  | open (i : Nat) : Astray (.error (.invalidGraph (.dependsOnItself i)))
  | operand (i j : Nat) : Astray (.error (.invalidGraph (.operandMissing i j)))
  | root (i : Nat) : Astray (.error (.invalidGraph (.notEvaluated i)))

/-- A computation without a memory that does not go astray. -/
def OnCourse (c : Except Failure α) : Prop := ∀ e, c = .error e → ¬e.Astray

theorem onCourse_ok (x : α) : OnCourse (.ok x : Except Failure α) := nofun

theorem onCourse_error {e : Failure} (h : ¬e.Astray) : OnCourse (.error e : Except Failure α) := by
  rintro _ ⟨⟩
  exact h

theorem onCourse_present (x? : Option α) : OnCourse (present x? : Except Failure α) := by
  cases x? with
  | none => exact onCourse_error nofun
  | some x => exact onCourse_ok x

theorem OnCourse.bind {c : Except Failure α} {f : α → Except Failure β} (hc : OnCourse c)
    (hf : ∀ x, OnCourse (f x)) : OnCourse (c >>= f) := by
  cases c with
  | error e => exact onCourse_error (hc e rfl)
  | ok x => exact hf x

theorem onCourse_filterM {f : α → Except Failure Bool} (hf : ∀ x, OnCourse (f x)) (xs : List α) :
    OnCourse (xs.filterM f) := by
  have aux (acc : List α) : OnCourse (xs.filterAuxM f acc) := by
    induction xs generalizing acc with
    | nil => exact onCourse_ok acc
    | cons x xs ih => exact (hf x).bind fun _ => ih _
  exact (aux []).bind fun _ => onCourse_ok _

/-- What a filter keeps. -/
theorem mem_filterM {f : α → Except Failure Bool} {xs ys : List α} (h : xs.filterM f = .ok ys)
    (x : α) : x ∈ ys ↔ x ∈ xs ∧ f x = .ok true := by
  have aux {xs acc zs : List α} (h : xs.filterAuxM f acc = .ok zs) :
      x ∈ zs ↔ x ∈ acc ∨ x ∈ xs ∧ f x = .ok true := by
    induction xs generalizing acc with
    | nil =>
        cases h
        simp
    | cons y xs ih =>
        rw [List.filterAuxM] at h
        cases hy : f y with
        | error e =>
            rw [hy] at h
            cases h
        | ok b =>
            rw [hy] at h
            have rest := ih h
            cases b <;> grind
  rw [List.filterM] at h
  cases kept : xs.filterAuxM f [] with
  | error e =>
      rw [kept] at h
      cases h
  | ok zs =>
      rw [kept] at h
      cases h
      simp [aux kept]

theorem Arena.onCourse_node (a : Arena F) (r : NodeRef) : OnCourse (a.node r) := by
  rw [node]
  split
  case h_1 =>
      split
      case isTrue => exact onCourse_ok _
      case isFalse => exact onCourse_error (by rintro ⟨⟩)
  case h_2 => exact onCourse_error (by rintro ⟨⟩)

/-! ## Evaluations on course -/

namespace Eval

/-- The computation does not go astray, and ends with `Q` if it does not fail. -/
def OnCourse (c : Eval F α) (m : Memory F) (Q : α → Memory F → Prop) : Prop :=
  match c.run m with
  | .ok (x, m') => Q x m'
  | .error e => ¬e.Astray

variable {m : Memory F} {P : α → Memory F → Prop} {Q : β → Memory F → Prop}

theorem onCourse_pure {x : α} (h : P x m) : OnCourse (pure x) m P := h

theorem onCourse_throw {e : Failure} (h : ¬e.Astray) : OnCourse (throw e : Eval F α) m P := h

theorem OnCourse.bind {c : Eval F α} {f : α → Eval F β} (hc : OnCourse c m P)
    (hf : ∀ x m', P x m' → OnCourse (f x) m' Q) : OnCourse (c >>= f) m Q := by
  rw [OnCourse] at hc ⊢
  rw [StateT.run_bind]
  split at hc
  case h_1 x m' run =>
      rw [run]
      exact hf x m' hc
  case h_2 e run =>
      rw [run]
      exact hc

theorem OnCourse.mono {c : Eval F α} {P' : α → Memory F → Prop} (hc : OnCourse c m P)
    (h : ∀ x m', P x m' → P' x m') : OnCourse c m P' := by
  rw [← bind_pure c]
  exact hc.bind h

theorem onCourse_get_bind {f : Memory F → Eval F β} (h : OnCourse (f m) m Q) :
    OnCourse (get >>= f) m Q := h

theorem onCourse_modify_bind {g : Memory F → Memory F} {f : Unit → Eval F β}
    (h : OnCourse (f ()) (g m) Q) : OnCourse (modify g >>= f) m Q := h

theorem onCourse_lift {c : Except Failure α} (hc : LoopDiff.OnCourse c)
    (h : ∀ x, c = .ok x → P x m) : OnCourse (liftM c : Eval F α) m P := by
  cases c with
  | error e => exact hc e rfl
  | ok x => exact h x rfl

theorem onCourse_lift_bind {c : Except Failure α} {f : α → Eval F β} (hc : LoopDiff.OnCourse c)
    (h : ∀ x, c = .ok x → OnCourse (f x) m Q) :
    OnCourse ((liftM c : Eval F α) >>= f) m Q :=
  (onCourse_lift (P := fun x m' => c = .ok x ∧ m' = m) hc fun _ eq => ⟨eq, rfl⟩).bind
    fun x _ ⟨eq, same⟩ => same ▸ h x eq

theorem onCourse_present_bind {x? : Option α} {f : α → Eval F β}
    (h : ∀ x, x? = some x → OnCourse (f x) m Q) : OnCourse (present x? >>= f) m Q := by
  cases x? with
  | none =>
      have stops : ¬(Failure.crash none).Astray := nofun
      exact (onCourse_throw (P := fun _ _ => False) stops).bind fun _ _ => False.elim
  | some x => exact h x rfl

/-- A fold keeps an invariant between the elements done so far and the
accumulated value. -/
theorem onCourse_foldlM {f : β → α → Eval F β} {xs : List α} {y : β}
    (I : List α → β → Memory F → Prop) (init : I [] y m)
    (step : ∀ done x rest y m', xs = done ++ x :: rest → I done y m' →
      OnCourse (f y x) m' (I (done ++ [x]))) : OnCourse (xs.foldlM f y) m (I xs) := by
  suffices h : ∀ rest done y m', xs = done ++ rest → I done y m' →
      OnCourse (rest.foldlM f y) m' (I xs) from h xs [] y m rfl init
  intro rest
  induction rest with
  | nil =>
      intro done y m' split hI
      rw [List.append_nil] at split
      exact onCourse_pure (split ▸ hI)
  | cons x rest ih =>
      intro done y m' split hI
      rw [List.foldlM_cons]
      refine (step done x rest y m' split hI).bind fun y' m'' hI' => ?_
      exact ih (done ++ [x]) y' m'' (by simp [split]) hI'

/-- A fold keeps what each of its steps keeps. -/
theorem onCourse_foldlM_of_mem {f : β → α → Eval F β} {xs : List α} {y : β} (init : Q y m)
    (step : ∀ x ∈ xs, ∀ y m', Q y m' → OnCourse (f y x) m' Q) : OnCourse (xs.foldlM f y) m Q :=
  onCourse_foldlM (fun _ => Q) init fun done x rest y m' split =>
    step x (by simp [split]) y m'

end Eval

end LoopDiff
