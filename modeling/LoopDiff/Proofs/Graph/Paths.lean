import LoopDiff.Proofs.Graph.Search
import Mathlib.Logic.Relation

/-!
# LoopDiff.Proofs.Graph.Paths

Paths along arguments, and the searches that follow them.

A node has an edge to each node among its arguments (`Arena.Edge`).  In an
arena that owns its arguments (`Arena.Owned`) a search never leaves the
arena, so it does not fail, and it marks exactly the nodes that a path leads
to (`Owned.yields_reachable`).  The test that guards the graph against cycles
is exact for the same reason (`Owned.reaches_eq`).
-/

namespace LoopDiff

variable {F : Type}

namespace Arena

/-- The node at position `j` is an argument of the node at position `i`. -/
def Edge (a : Arena F) (i j : Nat) : Prop := ∃ n, a.nodes[i]? = some n ∧ j ∈ n.argIndices

/-- Every path along arguments from one position to another. -/
abbrev Path (a : Arena F) : Nat → Nat → Prop := Relation.ReflTransGen a.Edge

/-- Every node among the arguments of a node is one of the arena. -/
def Owned (a : Arena F) : Prop :=
  ∀ (i : Nat) (n : Node F), a.nodes[i]? = some n → ∀ r, .node r ∈ n.args → a.owns r = true

variable {a : Arena F}

theorem owns_iff {r : NodeRef} : a.owns r = true ↔ r.arena = a.id ∧ r.index < a.size := by
  simp [owns]

theorem Tiered.owned (tiered : a.Tiered) : a.Owned := by
  intro i n hn r hr
  obtain ⟨arena, m, hm, -⟩ := tiered i n hn r hr
  exact owns_iff.mpr ⟨arena, (Array.getElem?_eq_some_iff.mp hm).1⟩

/-- What an arena owns is before whatever is recorded next. -/
theorem Owned.tieredFrom (owned : a.Owned) : a.TieredFrom a.size := by
  intro i n hn r hr
  obtain ⟨arena, lt⟩ := owns_iff.mp (owned i n hn r hr)
  exact ⟨arena, _, Array.getElem?_eq_getElem lt, .inl lt⟩

theorem Edge.lt {i j : Nat} (h : a.Edge i j) : i < a.size := by
  obtain ⟨n, hn, -⟩ := h
  exact (Array.getElem?_eq_some_iff.mp hn).1

theorem Owned.lt_of_edge (owned : a.Owned) {i j : Nat} (h : a.Edge i j) : j < a.size := by
  obtain ⟨n, hn, hj⟩ := h
  obtain ⟨r, hr, rfl⟩ := mem_argIndices.mp hj
  exact (owns_iff.mp (owned i n hn r hr)).2

theorem Owned.lt_of_path (owned : a.Owned) {i j : Nat} (lt : i < a.size) (h : a.Path i j) :
    j < a.size := by
  cases h with
  | refl => exact lt
  | tail _ edge => exact owned.lt_of_edge edge

theorem mem_successors {i j : Nat} {l : List Nat} (h : a.successors i = .ok l) :
    j ∈ l ↔ a.Edge i j := by
  cases hn : a.nodes[i]? with
  | none =>
      rw [successors, hn] at h
      cases h
  | some n =>
      rw [successors, hn] at h
      cases h
      constructor
      · exact fun hj => ⟨n, hn, hj⟩
      · rintro ⟨m, hm, hj⟩
        exact Option.some.inj (hn.symm.trans hm) ▸ hj

theorem successors_isOk {i : Nat} (lt : i < a.size) : ∃ l, a.successors i = .ok l := by
  have hn : a.nodes[i]? = some a.nodes[i] := Array.getElem?_eq_getElem lt
  exact ⟨_, by rw [successors, hn]; rfl⟩

/-- A search from nodes of the arena marks exactly what they lead to. -/
theorem Owned.yields_reachable (owned : a.Owned) {roots : List NodeRef}
    (own : ∀ r ∈ roots, r.index < a.size) :
    Yields (a.reachable roots) () fun live _ => live.size = a.size ∧
      ∀ i, live.getD i false = true ↔ ∃ r ∈ roots, a.Path r.index i := by
  have inside (i : Nat) : (∃ r ∈ roots, a.Path r.index i) → i < a.size :=
    fun ⟨r, hr, path⟩ => owned.lt_of_path (own r hr) path
  have closed : ClosedUnder a.successors fun i => ∃ r ∈ roots, a.Path r.index i := by
    intro i hi
    obtain ⟨l, hl⟩ := successors_isOk (inside i hi)
    obtain ⟨r, hr, path⟩ := hi
    exact ⟨l, hl, fun j hj => ⟨r, hr, path.tail ((mem_successors hl).mp hj)⟩⟩
  have blank (i : Nat) : (Array.replicate a.size false).getD i false ≠ true :=
    Bool.eq_false_iff.mp (getD_replicate ..)
  have start (i : Nat) (hi : i ∈ (roots.map NodeRef.index).reverse) :
      ∃ r ∈ roots, a.Path r.index i := by
    obtain ⟨r, hr, rfl⟩ := List.mem_map.mp (List.mem_reverse.mp hi)
    exact ⟨r, hr, .refl⟩
  have within (i : Nat) (hi : ∃ r ∈ roots, a.Path r.index i) :
      i < (Array.replicate a.size false).size := by
    simpa using inside i hi
  refine (yields_explore closed within start).mono fun live _ _ e =>
    ⟨by simpa using e.size_eq, fun i => ⟨fun marked => ?_, ?_⟩⟩
  · exact (e.inside marked).resolve_left (blank i)
  · rintro ⟨r, hr, path⟩
    -- marks are closed under arguments, so they follow the path
    induction path with
    | refl => exact e.root (List.mem_reverse.mpr (List.mem_map_of_mem hr))
    | tail _ edge marked =>
        obtain ⟨l, hl⟩ := successors_isOk edge.lt
        exact e.closed (fun i _ h => absurd h (blank i)) marked hl _ ((mem_successors hl).mpr edge)

/-- The search from one node to another tells whether a path leads there. -/
theorem Owned.reaches_eq (owned : a.Owned) {start : NodeRef} (lt : start.index < a.size)
    (target : NodeRef) :
    ∃ b, a.reaches start target = .ok b ∧ (b = true ↔ a.Path start.index target.index) := by
  rw [reaches]
  split
  case isTrue eq => exact ⟨true, rfl, fun _ => eq ▸ .refl, fun _ => rfl⟩
  case isFalse =>
      have own : ∀ r ∈ [start], r.index < a.size := by simpa using lt
      obtain ⟨live, run, -, exact_⟩ := exists_ok_of_yields (owned.yields_reachable own)
      rw [run]
      exact ⟨_, rfl, by simpa using exact_ target.index⟩

end Arena

end LoopDiff
