import LoopDiff.Proofs.Graph.Descent

/-!
# LoopDiff.Proofs.Graph.Order

The order in which an evaluation visits nodes.

On a grounded graph (`Arena.Grounded`) a visit is on course: it meets no node
that is open, and an operand is there when it is needed (`onCourse_visit`).
One invariant of the memory carries this (`Problem.Ordered`), together with
where the memory grows: a computation only remembers values of nodes that it
depends on (`Problem.Grows`), so a node is never remembered while it is being
computed.

The invariant says more than what is needed to stay on course.  Outside of
loops no remembered value depends on an iteration, so a value that is found
there is remembered to the end; and the value of a synonym is that of its
source.
-/

namespace LoopDiff

open Std Relation

variable {F : Type}

/-! ## What is remembered -/

namespace Memory

variable {m : Memory F} {i : Nat} {x : F}

theorem invariant_of_value? (h : m.value? i = some (x, false)) : m.invariant[i]? = some x := by
  rw [value?] at h
  split at h <;> simp_all

theorem varying_of_value? (h : m.value? i = some (x, true)) : m.varying[i]? = some x := by
  rw [value?] at h
  split at h <;> simp_all

theorem invariant_eq_none (h : m.value? i = none) : m.invariant[i]? = none := by
  rw [value?] at h
  split at h <;> simp_all

/-- A value that is remembered to the end, unless it depends on the iteration;
outside of loops it does not. -/
structure Backs (m : Memory F) (i : Nat) (y : F × Bool) : Prop where
  kept : y.2 = false → m.invariant[i]? = some y.1
  outside : m.iteration = none → y.2 = false

end Memory

namespace Problem

variable {p : Problem F} {P P' : Nat → Prop} {m m' m'' : Memory F}

/-- A memory in order. -/
structure Ordered (p : Problem F) (m : Memory F) : Prop where
  chains {k : Nat} {chain : Chain} : m.chains[k]? = some chain →
    ∀ link ∈ chain, ∀ s ∈ link.2, TransGen p.arena.Edge k s.index
  outside : m.iteration = none → ∀ i : Nat, m.varying[i]? = none
  synonym {i : Nat} {n : Node F} {s : NodeRef} {x : F} : p.arena.nodes[i]? = some n →
    n.kind = .synonym → n.args[0]? = some (.node s) → m.invariant[i]? = some x →
    m.invariant[s.index]? = some x

theorem ordered_empty : p.Ordered Memory.empty where
  chains h := by simp [Memory.empty] at h
  outside _ i := by simp [Memory.empty]
  synonym _ _ _ h := by simp [Memory.empty] at h

theorem Ordered.backs (ordered : p.Ordered m) {i : Nat} {y : F × Bool} (h : m.value? i = some y) :
    m.Backs i y := by
  obtain ⟨x, varies⟩ := y
  cases varies with
  | false => exact ⟨fun _ => Memory.invariant_of_value? h, fun _ => rfl⟩
  | true =>
      refine ⟨nofun, fun out => ?_⟩
      have none := (ordered.outside out i).symm.trans (Memory.varying_of_value? h)
      cases none

/-- Another iteration leaves a memory in order. -/
theorem Ordered.moveTo (ordered : p.Ordered m) (it : Option Nat) : p.Ordered (m.moveTo it) where
  chains := ordered.chains
  outside _ i := by simp [Memory.moveTo]
  synonym := ordered.synonym

/-- A later memory in order, which remembers more of the nodes in `P` and
nothing else that lasts. -/
structure Grows (p : Problem F) (P : Nat → Prop) (m m' : Memory F) : Prop where
  ordered : p.Ordered m'
  stays {i : Nat} {x : F} : m.invariant[i]? = some x → m'.invariant[i]? = some x
  within {i : Nat} {x : F} : m'.invariant[i]? = some x → m.invariant[i]? = some x ∨ P i

theorem Ordered.grows (ordered : p.Ordered m) : p.Grows P m m := ⟨ordered, id, .inl⟩

theorem Grows.trans (h : p.Grows P m m') (h' : p.Grows P m' m'') : p.Grows P m m'' :=
  ⟨h'.ordered, fun hi => h'.stays (h.stays hi), fun hi => (h'.within hi).elim h.within .inr⟩

theorem Grows.mono (h : p.Grows P m m') (sub : ∀ i, P i → P' i) : p.Grows P' m m' :=
  ⟨h.ordered, h.stays, fun hi => (h.within hi).imp_right (sub _)⟩

theorem Grows.moveTo (h : p.Grows P m m') (it : Option Nat) : p.Grows P m (m'.moveTo it) :=
  ⟨h.ordered.moveTo it, h.stays, h.within⟩

theorem Grows.eq_none (h : p.Grows P m m') {i : Nat} (new : m.invariant[i]? = none) (out : ¬P i) :
    m'.invariant[i]? = none := by
  refine Option.eq_none_iff_forall_ne_some.mpr fun x found => ?_
  rcases h.within found with before | inside
  · cases new.symm.trans before
  · exact out inside

theorem Grows.backs (h : p.Grows P m m') (same : m'.iteration = m.iteration) {i : Nat}
    {y : F × Bool} (backs : m.Backs i y) : m'.Backs i y :=
  ⟨fun fixed => h.stays (backs.kept fixed), fun out => backs.outside (same ▸ out)⟩

/-- A result may be remembered for a loop. -/
theorem Grows.loops (h : p.Grows P m m') (i : Nat) (acc : Accumulator F) :
    p.Grows P m { m' with loops := m'.loops.insert i acc } :=
  ⟨⟨h.ordered.chains, h.ordered.outside, h.ordered.synonym⟩, h.stays, h.within⟩

/-! ## Marks -/

/-- The marks of nodes that are done have values that the memory backs. -/
def Honest (m : Memory F) (marks : Marks F) : Prop :=
  ∀ (i : Nat) (x : F) (varies : Bool), marks[i]? = some (.done x varies) → m.Backs i (x, varies)

/-- What a visit does with marks: what was done stays done, and no node is left
open. -/
structure Advances (m' : Memory F) (marks marks' : Marks F) : Prop where
  honest : Honest m' marks'
  stays {i : Nat} {x : F} {varies : Bool} : marks[i]? = some (.done x varies) →
    marks'[i]? = some (.done x varies)
  opened {i : Nat} : marks'[i]? = some .opened → marks[i]? = some .opened

def Done (marks : Marks F) (r : NodeRef) : Prop :=
  ∃ x varies, marks[r.index]? = some (.done x varies)

theorem Advances.done {marks marks' : Marks F} (h : Advances m' marks marks') {r : NodeRef}
    (done : Done marks r) : Done marks' r := by
  obtain ⟨x, varies, hr⟩ := done
  exact ⟨x, varies, h.stays hr⟩

theorem Advances.trans {marks marks' marks'' : Marks F} (h : Advances m marks marks')
    (h' : Advances m' marks' marks'') : Advances m' marks marks'' :=
  ⟨h'.honest, fun hi => h'.stays (h.stays hi), fun hi => h.opened (h'.opened hi)⟩

theorem Honest.grows {marks : Marks F} (h : Honest m marks) (grows : p.Grows P m m')
    (same : m'.iteration = m.iteration) : Honest m' marks :=
  fun i x varies hi => grows.backs same (h i x varies hi)

theorem getElem?_insert {marks : Marks F} {i j : Nat} {k : Mark F} :
    (marks.insert i k)[j]? = if i = j then some k else marks[j]? := by
  simp [TreeMap.getElem?_insert]

theorem Honest.insert {marks : Marks F} (h : Honest m marks) {i : Nat} {y : F × Bool}
    (backs : m.Backs i y) : Honest m (marks.insert i (.done y.1 y.2)) := by
  intro j x varies hj
  rw [getElem?_insert] at hj
  split at hj
  case isTrue eq =>
      cases hj
      exact eq ▸ backs
  case isFalse => exact h j x varies hj

theorem Honest.insert_opened {marks : Marks F} (h : Honest m marks) (i : Nat) :
    Honest m (marks.insert i .opened) := by
  intro j x varies hj
  rw [getElem?_insert] at hj
  split at hj
  case isTrue => cases hj
  case isFalse => exact h j x varies hj

/-- The mark of a node that is new to a visit, once its value is remembered. -/
theorem Advances.insert {marks marks' : Marks F} {i : Nat} {y : F × Bool}
    (h : Advances m (marks.insert i .opened) marks') (backs : m.Backs i y)
    (new : ∀ x varies, marks[i]? ≠ some (.done x varies)) :
    Advances m marks (marks'.insert i (.done y.1 y.2)) := by
  refine ⟨h.honest.insert backs, fun {j x varies} hj => ?_, fun {j} hj => ?_⟩
  · have ne : i ≠ j := by
      rintro rfl
      exact new x varies hj
    rw [getElem?_insert, if_neg ne]
    exact h.stays (by rw [getElem?_insert, if_neg ne, hj])
  · rw [getElem?_insert] at hj
    split at hj
    case isTrue => cases hj
    case isFalse ne =>
        have before := h.opened hj
        rwa [getElem?_insert, if_neg ne] at before

/-! ## Operands -/

/-- The value of an operand that is done. -/
theorem exists_operand_of_done {marks : Marks F} {v : Value F} (r : NodeRef)
    (honest : Honest m marks) (done : ∀ s, v = .node s → Done marks s) :
    ∃ y, operand marks r v = .ok y ∧ (m.iteration = none → y.2 = false) ∧
      ∀ s, v = .node s → m.Backs s.index y := by
  cases v with
  | const x => exact ⟨(x, false), rfl, fun _ => rfl, nofun⟩
  | node s =>
      obtain ⟨x, varies, hs⟩ := done s rfl
      have backs := honest s.index x varies hs
      refine ⟨(x, varies), by rw [operand, hs], backs.outside, ?_⟩
      rintro _ ⟨⟩
      exact backs

theorem onCourse_operand_bind {β : Type} {marks : Marks F} {r : NodeRef} {v : Value F}
    {f : F × Bool → Eval F β} {Q : β → Memory F → Prop} (honest : Honest m marks)
    (done : ∀ s, v = .node s → Done marks s)
    (h : ∀ y, (m.iteration = none → y.2 = false) → (∀ s, v = .node s → m.Backs s.index y) →
      Eval.OnCourse (f y) m Q) :
    Eval.OnCourse ((liftM (operand marks r v) : Eval F (F × Bool)) >>= f) m Q := by
  obtain ⟨y, hy, outside, backs⟩ := exists_operand_of_done r honest done
  rw [hy]
  exact h y outside backs

/-- The nodes that are visited before a node. -/
theorem mem_args_of_operands {n : Node F} {children : List NodeRef}
    (h : p.operands n = .ok children) {s : NodeRef} (hs : s ∈ children) : .node s ∈ n.args := by
  rw [operands] at h
  split at h
  case h_1 | h_2 =>
      cases h
      exact List.mem_of_mem_take (Value.mem_nodes.mp hs)
  case h_3 | h_4 =>
      cases h
      exact Value.mem_nodes.mp hs
  case h_5 => exact Value.mem_nodes.mp ((mem_filterM h s).mp hs).1
  case h_6 =>
      cases h
      exact absurd hs List.not_mem_nil

theorem onCourse_operands (n : Node F) : OnCourse (p.operands n) := by
  rw [operands]
  split
  case h_5 => exact onCourse_filterM (fun r => (p.arena.onCourse_node r).bind fun _ => onCourse_ok _) _
  all_goals exact onCourse_ok _

theorem onCourse_input (array position : Nat) : OnCourse (p.input array position) := by
  rw [input]
  split
  case h_1 => exact onCourse_ok _
  case h_2 => exact onCourse_error (by rintro ⟨⟩)

theorem onCourse_patternAt (pattern iteration : Nat) : OnCourse (p.patternAt pattern iteration) := by
  rw [patternAt]
  split
  case h_1 => exact onCourse_ok _
  case h_2 => exact onCourse_error (by rintro ⟨⟩)

/-- Whoever needs the iteration is inside a loop. -/
theorem onCourse_iterationFor_bind {β : Type} {r : NodeRef} {f : Nat → Eval F β}
    {Q : β → Memory F → Prop} (h : ∀ i, m.iteration = some i → Eval.OnCourse (f i) m Q) :
    Eval.OnCourse (iterationFor r >>= f) m Q := by
  have look : Eval.OnCourse (iterationFor r) m fun i m' => m.iteration = some i ∧ m' = m := by
    refine Eval.onCourse_get_bind ?_
    split
    case h_1 i here => exact Eval.onCourse_pure ⟨here, rfl⟩
    case h_2 => exact Eval.onCourse_throw nofun
  refine look.bind ?_
  rintro i _ ⟨here, rfl⟩
  exact h i here

theorem outside_or {x y : F × Bool} (hx : m.iteration = none → x.2 = false)
    (hy : m.iteration = none → y.2 = false) (out : m.iteration = none) :
    (x.2 || y.2) = false := by
  rw [hx out, hy out, Bool.or_false]

/-! ## What a visit leaves behind -/

/-- What an evaluation of nodes in `P` leaves of a memory: one that remembers more, in
the same iteration. -/
structure Leaves (p : Problem F) (P : Nat → Prop) (m m' : Memory F) : Prop where
  grows : p.Grows P m m'
  iteration : m'.iteration = m.iteration

theorem Ordered.leaves (ordered : p.Ordered m) : p.Leaves P m m := ⟨ordered.grows, rfl⟩

theorem Leaves.ordered (h : p.Leaves P m m') : p.Ordered m' := h.grows.ordered

theorem Leaves.trans (h : p.Leaves P m m') (h' : p.Leaves P m' m'') : p.Leaves P m m'' :=
  ⟨h.grows.trans h'.grows, h'.iteration.trans h.iteration⟩

theorem Leaves.mono (h : p.Leaves P m m') (sub : ∀ i, P i → P' i) : p.Leaves P' m m' :=
  ⟨h.grows.mono sub, h.iteration⟩

/-- What an evaluation of an argument leaves is left by one of the node. -/
theorem Leaves.under {i j : Nat} (h : p.Leaves (p.arena.Path j) m m')
    (edge : p.arena.Edge i j) : p.Leaves (TransGen p.arena.Edge i) m m' :=
  h.mono fun _ path => .head' edge path

/-- What a node comes to: its value depends on the iteration only inside of
loops, and a synonym has the value of its source. -/
structure Computed (p : Problem F) (r : NodeRef) (n : Node F) (m : Memory F) (y : F × Bool)
    (m' : Memory F) : Prop where
  leaves : p.Leaves (TransGen p.arena.Edge r.index) m m'
  outside : m.iteration = none → y.2 = false
  source : n.kind = .synonym → ∀ s, n.args[0]? = some (.node s) → m'.Backs s.index y

/-- A value that is computed without the memory. -/
theorem Ordered.computed {r : NodeRef} {n : Node F} {y : F × Bool} (ordered : p.Ordered m)
    (outside : m.iteration = none → y.2 = false) (other : n.kind ≠ .synonym) :
    p.Computed r n m y m :=
  ⟨ordered.leaves, outside, fun kind => absurd kind other⟩

theorem invariant_keep (m : Memory F) (i : Nat) (x : F) (varies : Bool) (j : Nat) :
    (m.keep i x varies).invariant[j]? =
      if varies = false ∧ i = j then some x else m.invariant[j]? := by
  cases varies <;> simp [Memory.keep, TreeMap.getElem?_insert]

theorem iteration_keep (m : Memory F) (i : Nat) (x : F) (varies : Bool) :
    (m.keep i x varies).iteration = m.iteration := by
  cases varies <;> rfl

theorem chains_keep (m : Memory F) (i : Nat) (x : F) (varies : Bool) :
    (m.keep i x varies).chains = m.chains := by
  cases varies <;> rfl

/-- The value of a node is remembered if none was. -/
theorem Ordered.keep (ordered : p.Ordered m) {i : Nat} {n : Node F} {y : F × Bool}
    (hn : p.arena.nodes[i]? = some n) (new : m.invariant[i]? = none)
    (outside : m.iteration = none → y.2 = false)
    (source : n.kind = .synonym → ∀ s, n.args[0]? = some (.node s) → m.Backs s.index y) :
    p.Ordered (m.keep i y.1 y.2) where
  chains h := ordered.chains (chains_keep m i y.1 y.2 ▸ h)
  outside out j := by
    rw [iteration_keep] at out
    rw [outside out]
    exact ordered.outside out j
  synonym {j k s x} hk kind arg found := by
    rw [invariant_keep] at found ⊢
    by_cases here : y.2 = false ∧ i = j
    · obtain ⟨fixed, rfl⟩ := here
      rw [if_pos ⟨fixed, rfl⟩] at found
      cases hn.symm.trans hk
      split
      case isTrue => exact found
      case isFalse => exact found ▸ (source kind s arg).kept fixed
    · rw [if_neg here] at found
      have before := ordered.synonym hk kind arg found
      split
      case isTrue same =>
          -- a value of the node was not there to be a synonym's
          rw [same.2, before] at new
          cases new
      case isFalse => exact before

theorem Grows.keep (h : p.Grows P m m') {i : Nat} {x : F} {varies : Bool}
    (ordered : p.Ordered (m'.keep i x varies)) (new : m.invariant[i]? = none) (self : P i) :
    p.Grows P m (m'.keep i x varies) := by
  refine ⟨ordered, fun {j z} hj => ?_, fun {j z} hj => ?_⟩
  · rw [invariant_keep, if_neg]
    · exact h.stays hj
    · rintro ⟨-, rfl⟩
      cases new.symm.trans hj
  · rw [invariant_keep] at hj
    split at hj
    case isTrue here => exact .inr (here.2 ▸ self)
    case isFalse => exact h.within hj

/-- What a visit leaves behind. -/
structure Visits (p : Problem F) (r : NodeRef) (m : Memory F) (marks marks' : Marks F)
    (m' : Memory F) : Prop where
  leaves : p.Leaves (p.arena.Path r.index) m m'
  advances : Advances m' marks marks'
  done : Done marks' r

/-- Marks a node with a value that the memory backs. -/
theorem Honest.visits {marks : Marks F} {r : NodeRef} {y : F × Bool} (honest : Honest m marks)
    (ordered : p.Ordered m) (backs : m.Backs r.index y)
    (new : ∀ x varies, marks[r.index]? ≠ some (.done x varies)) :
    p.Visits r m marks (marks.insert r.index (.done y.1 y.2)) m := by
  refine ⟨ordered.leaves, ⟨honest.insert backs, fun {i x varies} hi => ?_, fun {i} hi => ?_⟩,
    y.1, y.2, by simp⟩
  · rw [getElem?_insert, if_neg]
    · exact hi
    · rintro rfl
      exact new x varies hi
  · rw [getElem?_insert] at hi
    split at hi
    case isTrue => cases hi
    case isFalse => exact hi

/-- The end of a visit: the value of the node is remembered, and nothing that the
node depends on is the node itself. -/
theorem Computed.visits (grounded : p.arena.Grounded) {r : NodeRef} {n : Node F}
    {marks marks' : Marks F} {y : F × Bool} (h : p.Computed r n m' y m'')
    (hn : p.arena.node r = .ok n) (before : p.Leaves (TransGen p.arena.Edge r.index) m m')
    (advances : Advances m' (marks.insert r.index .opened) marks')
    (absent : m.invariant[r.index]? = none)
    (new : ∀ x varies, marks[r.index]? ≠ some (.done x varies)) :
    p.Visits r m marks (marks'.insert r.index (.done y.1 y.2)) (m''.keep r.index y.1 y.2) := by
  have absent' := before.grows.eq_none absent (grounded.acyclic _)
  have absent'' := h.leaves.grows.eq_none absent' (grounded.acyclic _)
  have outside (out : m''.iteration = none) : y.2 = false :=
    h.outside (h.leaves.iteration ▸ out)
  have ordered := h.leaves.ordered.keep (Arena.node_eq_ok_iff.mp hn).2 absent'' outside h.source
  have iteration := iteration_keep m'' r.index y.1 y.2
  have after {m : Memory F} (leaves : p.Leaves (TransGen p.arena.Edge r.index) m m'')
      (absent : m.invariant[r.index]? = none) :
      p.Leaves (p.arena.Path r.index) m (m''.keep r.index y.1 y.2) :=
    ⟨(leaves.grows.mono fun i path => path.to_reflTransGen).keep ordered absent .refl,
      iteration.trans leaves.iteration⟩
  have backs : (m''.keep r.index y.1 y.2).Backs r.index y :=
    ⟨fun fixed => by rw [invariant_keep, if_pos ⟨fixed, rfl⟩],
      fun out => outside (iteration ▸ out)⟩
  have rest := after h.leaves absent'
  have honest := advances.honest.grows rest.grows rest.iteration
  exact ⟨after (before.trans h.leaves) absent,
    Advances.insert ⟨honest, advances.stays, advances.opened⟩ backs new, y.1, y.2, by simp⟩

/-- What the visits of the operands of a node leave: operands that are done, and the
node itself open. -/
structure Underway (p : Problem F) (r : NodeRef) (m : Memory F) (marks : Marks F)
    (operands : List NodeRef) (marks' : Marks F) (m' : Memory F) : Prop where
  leaves : p.Leaves (TransGen p.arena.Edge r.index) m m'
  advances : Advances m' (marks.insert r.index .opened) marks'
  done : ∀ s ∈ operands, Done marks' s

/-- The visit of one more operand. -/
theorem Underway.visit {r s : NodeRef} {marks marks' marks'' : Marks F}
    {operands : List NodeRef} (h : p.Underway r m marks operands marks' m')
    (edge : p.arena.Edge r.index s.index) (visits : p.Visits s m' marks' marks'' m'') :
    p.Underway r m marks (operands ++ [s]) marks'' m'' where
  leaves := h.leaves.trans (visits.leaves.under edge)
  advances := h.advances.trans visits.advances
  done t ht := by
    rcases List.mem_append.mp ht with ht | ht
    · exact visits.advances.done (h.done t ht)
    · exact List.mem_singleton.mp ht ▸ visits.done

/-! ## Values -/

/-- Loops that depend on fewer than `d` nodes run on course. -/
def RunsBelow (p : Problem F) (d : Nat) (run : NodeRef → Eval F (Accumulator F)) : Prop :=
  ∀ (loop : NodeRef) (m : Memory F), p.arena.rank loop.index < d → p.Ordered m →
    Eval.OnCourse (run loop) m fun _ => p.Leaves (p.arena.Path loop.index) m

variable [Scalar F] {run : NodeRef → Eval F (Accumulator F)} {d : Nat}

theorem onCourse_locationValue (runs : p.RunsBelow d run) {loop : NodeRef}
    (lt : p.arena.rank loop.index < d) (location : Nat) (ordered : p.Ordered m) :
    Eval.OnCourse (locationValue run loop location) m fun _ =>
      p.Leaves (p.arena.Path loop.index) m := by
  refine Eval.onCourse_get_bind ?_
  split
  case h_1 => exact Eval.onCourse_pure ordered.leaves
  case h_2 =>
      refine (runs loop m lt ordered).bind fun acc m' leaves => ?_
      refine Eval.onCourse_modify_bind ?_
      exact Eval.onCourse_pure (x := acc.getD location Scalar.zero)
        ⟨leaves.grows.loops loop.index acc, leaves.iteration⟩

section

variable {r : NodeRef} {n : Node F} {children : List NodeRef} {marks : Marks F}
  (hn : p.arena.node r = .ok n) (le : p.arena.rank r.index ≤ d)
  (hchildren : p.operands n = .ok children) (ordered : p.Ordered m) (honest : Honest m marks)
  (done : ∀ s ∈ children, Done marks s)

include hchildren ordered honest done

/-- An elementary operation needs all its arguments. -/
theorem onCourse_operation {code : OpCode} (kind : n.kind = .op code) :
    Eval.OnCourse (p.nodeValue run marks r n) m (p.Computed r n m) := by
  have here {k : Nat} {v : Value F} (hv : n.args[k]? = some v) (s : NodeRef) (eq : v = .node s) :
      Done marks s := by
    simp only [operands, kind] at hchildren
    cases hchildren
    exact done s (Value.mem_nodes.mpr (eq ▸ List.mem_of_getElem? hv))
  have value (x y : F × Bool) (hx : m.iteration = none → x.2 = false)
      (hy : m.iteration = none → y.2 = false) (exponent : Int32) : Eval.OnCourse
        (pure (code.eval x.1 y.1 exponent, x.2 || y.2)) m (p.Computed r n m) :=
    Eval.onCourse_pure (ordered.computed (outside_or hx hy) (by simp [kind]))
  simp only [nodeValue, kind]
  refine Eval.onCourse_present_bind fun v hv => ?_
  refine onCourse_operand_bind honest (here hv) fun x hx _ => ?_
  cases hw : n.args[1]? with
  | none =>
      simp only [pure_bind]
      split
      case h_1 =>
          exact Eval.onCourse_present_bind fun word _ =>
            value x (Scalar.zero, false) hx (fun _ => rfl) (Exponent.decode word)
      case h_2 => exact value x (Scalar.zero, false) hx (fun _ => rfl) 0
  | some w =>
      refine onCourse_operand_bind honest (here hw) fun y hy _ => ?_
      split
      case h_1 =>
          exact Eval.onCourse_present_bind fun word _ => value x y hx hy (Exponent.decode word)
      case h_2 => exact value x y hx hy 0

include hn le

/-- An accumulation runs the loops among its arguments. -/
theorem onCourse_accumulate (grounded : p.arena.Grounded) (runs : p.RunsBelow d run)
    (kind : n.kind = .accumulate) :
    Eval.OnCourse (p.nodeValue run marks r n) m (p.Computed r n m) := by
  simp only [nodeValue, kind]
  refine Eval.onCourse_present_bind fun location _ => ?_
  refine (Eval.onCourse_foldlM_of_mem (Q := fun _ => p.Leaves (TransGen p.arena.Edge r.index) m)
    ordered.leaves fun arg mem sum m' leaves => ?_).bind fun sum m' leaves => ?_
  · have read (here : ∀ s, arg = .node s → Done marks s) : Eval.OnCourse (do
        return Scalar.binary .add sum (← operand marks r arg).1) m' fun _ =>
        p.Leaves (TransGen p.arena.Edge r.index) m :=
      onCourse_operand_bind (honest.grows leaves.grows leaves.iteration) here fun y _ _ =>
        Eval.onCourse_pure leaves
    cases arg with
    | const x => simpa only [pure_bind] using read fun s eq => by cases eq
    | node a =>
        have edge := Arena.edge_of_mem hn mem
        refine Eval.onCourse_lift_bind (p.arena.onCourse_node a) fun k hk => ?_
        rw [pure_bind]
        by_cases loop : k.kind = .loopEnd
        · rw [if_pos loop]
          have lt := (grounded.rank_lt_of_edge edge).trans_le le
          refine (onCourse_locationValue runs lt location leaves.ordered).bind
            fun x m'' leaves' => ?_
          exact Eval.onCourse_pure (leaves.trans (leaves'.under edge))
        · rw [if_neg loop]
          simp only [pure_bind]
          refine read ?_
          rintro _ ⟨⟩
          have kept : a ∈ children := by
            simp only [operands, kind] at hchildren
            refine (mem_filterM hchildren a).mpr ⟨Value.mem_nodes.mpr mem, ?_⟩
            rw [hk]
            simpa using loop
          exact done a kept
  · refine Eval.onCourse_pure ⟨leaves, fun _ => rfl, fun other => ?_⟩
    cases kind.symm.trans other

/-- A node comes to its value once its operands are done. -/
theorem onCourse_nodeValue (grounded : p.arena.Grounded) (runs : p.RunsBelow d run) :
    Eval.OnCourse (p.nodeValue run marks r n) m (p.Computed r n m) := by
  cases kind : n.kind with
  | independent =>
      simp only [nodeValue, kind]
      refine Eval.onCourse_present_bind fun array _ => Eval.onCourse_present_bind fun position _ => ?_
      refine Eval.onCourse_lift_bind (onCourse_input array position) fun x _ => ?_
      exact Eval.onCourse_pure (ordered.computed (fun _ => rfl) (by simp [kind]))
  | assign | synonym =>
      simp only [nodeValue, kind]
      refine Eval.onCourse_present_bind fun v hv => ?_
      have here (s : NodeRef) (eq : v = .node s) : Done marks s := by
        simp only [operands, kind] at hchildren
        cases hchildren
        refine done s (Value.mem_nodes.mpr (List.mem_of_getElem? (i := 0) ?_))
        rw [List.getElem?_take_of_lt Nat.zero_lt_one, hv, eq]
      obtain ⟨y, hy, outside, backs⟩ := exists_operand_of_done r honest here
      rw [hy]
      refine Eval.onCourse_pure (x := y) ⟨ordered.leaves, outside, fun _ s hs => backs s ?_⟩
      exact Option.some.inj (hv.symm.trans hs)
  | op code => exact onCourse_operation hchildren ordered honest done kind
  | compound op =>
      have here {k : Nat} {v : Value F} (hv : n.args[k]? = some v) (s : NodeRef)
          (eq : v = .node s) : Done marks s := by
        simp only [operands, kind] at hchildren
        cases hchildren
        exact done s (Value.mem_nodes.mpr (eq ▸ List.mem_of_getElem? hv))
      simp only [nodeValue, kind]
      refine Eval.onCourse_present_bind fun v hv => ?_
      refine onCourse_operand_bind honest (here hv) fun x hx _ => ?_
      refine Eval.onCourse_present_bind fun w hw => ?_
      refine onCourse_operand_bind honest (here hw) fun y hy _ => ?_
      exact Eval.onCourse_pure (ordered.computed (outside_or hx hy) (by simp [kind]))
  | iteration =>
      simp only [nodeValue, kind]
      refine onCourse_iterationFor_bind fun i inside => ?_
      exact Eval.onCourse_pure (ordered.computed (by simp [inside]) (by simp [kind]))
  | indexedRead =>
      simp only [nodeValue, kind]
      refine onCourse_iterationFor_bind fun i inside => Eval.onCourse_present_bind fun pattern _ => ?_
      refine Eval.onCourse_lift_bind (onCourse_patternAt pattern i) fun position _ => ?_
      refine Eval.onCourse_present_bind fun array _ => ?_
      refine Eval.onCourse_lift_bind (onCourse_input array position) fun x _ => ?_
      exact Eval.onCourse_pure (ordered.computed (by simp [inside]) (by simp [kind]))
  | accumulate =>
      exact onCourse_accumulate hn le hchildren ordered honest done grounded runs kind
  | _ =>
      simp only [nodeValue, kind]
      exact Eval.onCourse_throw (by rintro ⟨⟩)

end

/-! ## Visits -/

/-- A visit stays on course if the nodes that are open lead to the node that is
visited. -/
theorem onCourse_visit (grounded : p.arena.Grounded) (runs : p.RunsBelow d run) {depth : Nat}
    {r : NodeRef} {marks : Marks F} (deep : p.arena.rank r.index < depth)
    (le : p.arena.rank r.index ≤ d) (ordered : p.Ordered m) (honest : Honest m marks)
    (opened : ∀ i, marks[i]? = some .opened → TransGen p.arena.Edge i r.index) :
    Eval.OnCourse (p.visit run depth r marks) m (p.Visits r m marks) := by
  induction depth generalizing r m marks with
  | zero => exact absurd deep (Nat.not_lt_zero _)
  | succ depth ih =>
      rw [visit]
      refine Eval.onCourse_get_bind ?_
      split
      case h_1 _ _ x varies marked =>
          exact Eval.onCourse_pure ⟨ordered.leaves, ⟨honest, id, id⟩, x, varies, marked⟩
      case h_2 _ _ x varies found unmarked =>
          exact Eval.onCourse_pure (honest.visits ordered (ordered.backs found) unmarked)
      case h_3 open_ _ => exact absurd (opened _ open_) (grounded.acyclic _)
      case h_4 new unknown =>
          have absent := Memory.invariant_eq_none unknown
          refine Eval.onCourse_lift_bind (p.arena.onCourse_node r) fun n hn => ?_
          refine Eval.onCourse_lift_bind (onCourse_operands n) fun children hchildren => ?_
          refine (Eval.onCourse_foldlM (p.Underway r m marks)
            ⟨ordered.leaves, ⟨honest.insert_opened _, id, id⟩, by simp⟩ ?_).bind
              fun marks' m' underway => ?_
          · intro done s rest marks' m' split underway
            have mem : s ∈ children := List.mem_reverse.mp (split ▸ by simp)
            have edge := Arena.edge_of_mem hn (mem_args_of_operands hchildren mem)
            have less := grounded.rank_lt_of_edge edge
            refine (ih (by omega) (by omega) underway.leaves.ordered underway.advances.honest
              fun i hi => ?_).mono fun marks'' m'' visits => underway.visit edge visits
            -- an open node led to the node, or is the node itself
            have before := underway.advances.opened hi
            rw [getElem?_insert] at before
            split at before
            case isTrue eq => exact eq ▸ .single edge
            case isFalse => exact (opened i before).tail edge
          · refine (onCourse_nodeValue hn le hchildren underway.leaves.ordered
              underway.advances.honest (fun s hs => underway.done s (List.mem_reverse.mpr hs))
              grounded runs).bind fun y m'' computed => ?_
            refine Eval.onCourse_modify_bind (Eval.onCourse_pure ?_)
            refine computed.visits grounded hn underway.leaves underway.advances absent
              fun x varies marked => ?_
            cases new.symm.trans marked

/-- The value of a node.  Outside of loops it is remembered to the end. -/
theorem onCourse_value (grounded : p.arena.Grounded) (runs : p.RunsBelow d run) {r : NodeRef}
    (le : p.arena.rank r.index ≤ d) (ordered : p.Ordered m) :
    Eval.OnCourse (p.value run r) m fun x m' => p.Leaves (p.arena.Path r.index) m m' ∧
      (m.iteration = none → m'.invariant[r.index]? = some x) := by
  rw [value]
  refine Eval.onCourse_get_bind ?_
  split
  case h_1 x varies found =>
      have backs := ordered.backs found
      exact Eval.onCourse_pure ⟨ordered.leaves, fun out => backs.kept (backs.outside out)⟩
  case h_2 =>
      have deep := Nat.lt_succ_of_le (grounded.rank_le r.index)
      have honest : Honest m ∅ := fun i x varies hi => by simp at hi
      have opened (i : Nat) (hi : (∅ : Marks F)[i]? = some .opened) :
          TransGen p.arena.Edge i r.index := by simp at hi
      refine (onCourse_visit grounded runs deep le ordered honest opened).bind
        fun marks m' visits => ?_
      obtain ⟨x, varies, marked⟩ := visits.done
      have backs := visits.advances.honest r.index x varies marked
      rw [marked]
      exact Eval.onCourse_pure ⟨visits.leaves, fun out =>
        backs.kept (backs.outside (visits.leaves.iteration.trans out))⟩

end Problem

end LoopDiff
