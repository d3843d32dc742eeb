import LoopDiff.Proofs.Graph.Steps

/-!
# LoopDiff.Proofs.Graph.History

What any sequence of calls leaves of an arena.

The calls of an arena may come in any order and with any arguments, handles
of other arenas and of nodes that are not there included (`Arena.Call`).
Whatever is called, the arguments of every node are nodes of the arena
(`Arena.Owned`), no node depends on itself (`Arena.Acyclic`), and what was
recorded stays as it was, but for arguments that are added to nodes that
collect them (`Arena.Continues`).  A call that fails leaves the arena as it
was; what `push` finds again is found among the nodes, so nothing beside them
could be left behind.

Adding arguments is the one step by which a later node becomes an argument of
an earlier one, so positions do not order the graph.  What keeps it acyclic
is that the new arguments do not lead back to the node: the nodes from which
it cannot be reached are closed under arguments, before and after.
-/

namespace LoopDiff

variable {F : Type}

namespace Arena

/-! ## Calls -/

/-- A call that may change an arena. -/
inductive Call (F : Type) where
  | push (kind : Kind) (args : List (Value F)) (info : List Nat)
  | newIndependent (array position : Nat)
  | newIndependents (array count : Nat)
  | append (target : NodeRef) (args : List (Value F))
  | markOverwritten (r : NodeRef)
  | addPattern (p : Pattern) (iterations : Nat)

/-- Makes a call. -/
def Call.run [Scalar F] : Call F → ArenaM F Unit
  | push kind args info => do
    let _ ← Arena.push kind args info
    return ()
  | newIndependent array position => do
    let _ ← Arena.newIndependent array position
    return ()
  | newIndependents array count => do
    let _ ← Arena.newIndependents array count
    return ()
  | append target args => Arena.append target args
  | markOverwritten r => Arena.markOverwritten r
  | addPattern p iterations => do
    let _ ← Arena.addPattern p iterations
    return ()

/-- The arena after some calls, those that fail included. -/
def after [Scalar F] (a : Arena F) (calls : List (Call F)) : Arena F :=
  calls.foldl (fun a c => (c.run.run.run a).2) a

/-! ## Invariants -/

/-- No node is reached from itself along arguments. -/
def Acyclic (a : Arena F) : Prop := ∀ i, ¬Relation.TransGen a.Edge i i

/-- The arena `a'` has the nodes of `a`, at their positions, and its patterns.
Only nodes that collect arguments have got more of them, at the end. -/
structure Continues (a a' : Arena F) : Prop where
  id_eq : a'.id = a.id
  node {i : Nat} {n : Node F} : a.nodes[i]? = some n → ∃ n' more, a'.nodes[i]? = some n' ∧
    n'.kind = n.kind ∧ n'.info = n.info ∧ n'.args = n.args ++ more ∧
    (n.kind.isAppendable = false → more = []) ∧ (n.overwritten = true → n'.overwritten = true)
  pattern {i : Nat} {p : Pattern × Nat} : a.patterns[i]? = some p → a'.patterns[i]? = some p

variable {a a' : Arena F}

theorem Continues.refl (a : Arena F) : a.Continues a :=
  ⟨rfl, fun {_ n} hn => ⟨n, [], hn, rfl, rfl, by simp, fun _ => rfl, fun h => h⟩, fun h => h⟩

theorem Continues.trans {a'' : Arena F} (h : a.Continues a') (h' : a'.Continues a'') :
    a.Continues a'' := by
  refine ⟨h'.id_eq.trans h.id_eq, fun hn => ?_, fun hp => h'.pattern (h.pattern hp)⟩
  obtain ⟨n', more, hn', kind, info, args, fixed, flag⟩ := h.node hn
  obtain ⟨n'', more', hn'', kind', info', args', fixed', flag'⟩ := h'.node hn'
  refine ⟨n'', more ++ more', hn'', kind'.trans kind, info'.trans info, ?_, fun closed => ?_,
    fun marked => flag' (flag marked)⟩
  · rw [args', args, List.append_assoc]
  · rw [fixed closed, fixed' (kind ▸ closed), List.append_nil]

/-- Nodes that compute a number collect no arguments, so they are preserved. -/
theorem Continues.preserves (h : a.Continues a') : a.Preserves a' where
  id_eq := h.id_eq
  node {i n} hn tier := by
    obtain ⟨n', more, hn', kind, info, args, fixed, -⟩ := h.node hn
    cases fixed (Kind.not_appendable_of_tier tier)
    refine ⟨n'.overwritten, ?_⟩
    rw [hn', ← kind, ← info, ← List.append_nil n.args, ← args]
  pattern := h.pattern

/-! ## Edges -/

theorem edge_pushed {n : Node F} {i j : Nat} (h : (a.pushed n).Edge i j) :
    a.Edge i j ∨ i = a.size ∧ j ∈ n.argIndices := by
  obtain ⟨m, hm, hj⟩ := h
  rcases getElem?_push_cases hm with hm | ⟨last, rfl⟩
  · exact .inl ⟨m, hm, hj⟩
  · exact .inr ⟨last, hj⟩

theorem edge_extended {target : NodeRef} {args : List (Value F)} {i j : Nat}
    (h : (a.extended target args).Edge i j) :
    a.Edge i j ∨ i = target.index ∧ ∃ r, .node r ∈ args ∧ r.index = j := by
  obtain ⟨m, hm, hj⟩ := h
  rw [node_extended, Option.map_eq_some_iff] at hm
  obtain ⟨n, hn, rfl⟩ := hm
  obtain ⟨r, hr, eq⟩ := mem_argIndices.mp hj
  rcases List.mem_append.mp hr with hr | hr
  · exact .inl ⟨n, hn, mem_argIndices.mpr ⟨r, hr, eq⟩⟩
  · split at hr
    case isTrue here => exact .inr ⟨here.symm, r, hr, eq⟩
    case isFalse => exact absurd hr List.not_mem_nil

theorem edge_marked {r : NodeRef} {i j : Nat} (h : (a.marked r).Edge i j) : a.Edge i j := by
  obtain ⟨m, hm, hj⟩ := h
  rw [node_marked, Option.map_eq_some_iff] at hm
  obtain ⟨n, hn, rfl⟩ := hm
  exact ⟨n, hn, hj⟩

/-! ## Steps -/

section

variable [Scalar F] {shape : Node F → Prop}

theorem Step.continues (h : a.Step shape a') : a.Continues a' := by
  cases h with
  | node n shaped own =>
      exact ⟨rfl, fun {i m} hm => ⟨m, [], getElem?_push_of_some hm n, rfl, rfl, by simp,
        fun _ => rfl, fun h => h⟩, fun h => h⟩
  | arguments target n args found appendable own away =>
      refine ⟨rfl, fun {i m} hm => ?_, fun h => h⟩
      have moved := node_extended a target args i
      rw [hm, Option.map_some] at moved
      refine ⟨_, _, moved, rfl, rfl, rfl, fun fixed => ?_, fun h => h⟩
      split
      case isTrue here =>
          -- the node that got arguments collects them
          obtain ⟨-, hn⟩ := node_eq_ok_iff.mp found
          rw [here, hm] at hn
          cases hn
          rw [appendable] at fixed
          cases fixed
      case isFalse => rfl
  | mark r =>
      refine ⟨rfl, fun {i m} hm => ?_, fun h => h⟩
      have moved := node_marked a r i
      rw [hm, Option.map_some] at moved
      exact ⟨_, [], moved, rfl, rfl, by simp, fun _ => rfl, fun flag => by simp [flag]⟩
  | pattern p n =>
      exact ⟨rfl, fun {i m} hm => ⟨m, [], hm, rfl, rfl, by simp, fun _ => rfl, fun h => h⟩,
        (le_registered a p n).pattern⟩

omit [Scalar F] in
theorem Continues.owns (h : a.Continues a') {r : NodeRef} (own : a.owns r = true) :
    a'.owns r = true := by
  obtain ⟨arena, lt⟩ := owns_iff.mp own
  obtain ⟨n', -, hn', -⟩ := h.node (Array.getElem?_eq_getElem lt)
  exact owns_iff.mpr ⟨arena.trans h.id_eq.symm, (Array.getElem?_eq_some_iff.mp hn').1⟩

theorem Step.owned (h : a.Step shape a') (owned : a.Owned) : a'.Owned := by
  intro i m hm r hr
  refine h.continues.owns ?_
  cases h with
  | node n shaped own =>
      rcases getElem?_push_cases hm with hm | ⟨-, rfl⟩
      · exact owned i m hm r hr
      · exact own r hr
  | arguments target n args found appendable own away =>
      rw [node_extended, Option.map_eq_some_iff] at hm
      obtain ⟨k, hk, rfl⟩ := hm
      rcases List.mem_append.mp hr with hr | hr
      · exact owned i k hk r hr
      · split at hr
        case isTrue => exact own r hr
        case isFalse => exact absurd hr List.not_mem_nil
  | mark s =>
      rw [node_marked, Option.map_eq_some_iff] at hm
      obtain ⟨k, hk, rfl⟩ := hm
      exact owned i k hk r hr
  | pattern p n => exact owned i m hm r hr

/-- New edges that all leave one node make no cycle, if they lead into a set
that contains the ends of all edges of its members, but not that node. -/
theorem acyclic_of_edges {E E' : Nat → Nat → Prop} {P : Nat → Prop} {t : Nat}
    (acyclic : ∀ i, ¬Relation.TransGen E i i) (new : ∀ i j, E' i j → E i j ∨ i = t ∧ P j)
    (closed : ∀ i j, P i → E i j → P j) (out : ¬P t) (i : Nat) : ¬Relation.TransGen E' i i := by
  have inside {i j : Nat} (hi : P i) (path : Relation.TransGen E' i j) :
      Relation.TransGen E i j ∧ P j := by
    have old {i j : Nat} (hi : P i) (edge : E' i j) : E i j :=
      (new i j edge).resolve_right fun ⟨eq, _⟩ => out (eq ▸ hi)
    induction path with
    | single edge => exact ⟨.single (old hi edge), closed _ _ hi (old hi edge)⟩
    | tail _ edge ih => exact ⟨ih.1.tail (old ih.2 edge), closed _ _ ih.2 (old ih.2 edge)⟩
  have path {i j : Nat} (path : Relation.TransGen E' i j) : Relation.TransGen E i j ∨ P j := by
    induction path with
    | single edge => exact (new _ _ edge).imp .single And.right
    | tail _ edge ih =>
        rcases ih with before | hj
        · exact (new _ _ edge).imp before.tail And.right
        · exact .inr (inside hj (.single edge)).2
  intro cycle
  rcases path cycle with old | hi
  · exact acyclic i old
  · exact acyclic i (inside hi cycle).1

theorem Step.acyclic (h : a.Step shape a') (owned : a.Owned) (acyclic : a.Acyclic) :
    a'.Acyclic := by
  cases h with
  | node n shaped own =>
      refine acyclic_of_edges (t := a.size) (P := fun j => j < a.size) acyclic (fun i j edge => ?_)
        (fun i j _ edge => owned.lt_of_edge edge) (Nat.lt_irrefl _)
      refine (edge_pushed edge).imp_right fun ⟨last, hj⟩ => ⟨last, ?_⟩
      obtain ⟨r, hr, rfl⟩ := mem_argIndices.mp hj
      exact (owns_iff.mp (own r hr)).2
  | arguments target n args found appendable own away =>
      refine acyclic_of_edges (t := target.index) (P := fun j => ¬a.Path j target.index) acyclic
        (fun i j edge => ?_) (fun i j hi edge path => hi (.head edge path)) fun h => h .refl
      refine (edge_extended edge).imp_right ?_
      rintro ⟨here, r, hr, rfl⟩
      obtain ⟨b, search, exact_⟩ := owned.reaches_eq (owns_iff.mp (own r hr)).2 target
      rw [away r hr] at search
      cases search
      exact ⟨here, fun path => Bool.false_ne_true (exact_.mpr path)⟩
  | mark r =>
      exact fun i cycle => acyclic i (Relation.TransGen.mono (fun _ _ => edge_marked) i i cycle)
  | pattern p n => exact acyclic

theorem Steps.owned (h : a.Steps shape a') (owned : a.Owned) : a'.Owned :=
  h.invariant owned fun _ _ step => step.owned

theorem Steps.acyclic (h : a.Steps shape a') (owned : a.Owned) (acyclic : a.Acyclic) :
    a'.Acyclic :=
  And.right <| h.invariant (I := fun b => b.Owned ∧ b.Acyclic) ⟨owned, acyclic⟩
    fun _ _ step ih => ⟨step.owned ih.1, step.acyclic ih.1 ih.2⟩

theorem Steps.continues (h : a.Steps shape a') : a.Continues a' :=
  h.invariant (.refl a) fun _ _ step ih => ih.trans step.continues

end

theorem owned_empty (id : Nat) : (empty id : Arena F).Owned :=
  fun i n hn => by simp [empty] at hn

theorem acyclic_empty (id : Nat) : (empty id : Arena F).Acyclic := by
  have none (i j : Nat) : ¬(empty id : Arena F).Edge i j := fun edge => Nat.not_lt_zero _ edge.lt
  intro i cycle
  cases cycle with
  | single edge => exact none _ _ edge
  | tail _ edge => exact none _ _ edge

/-! ## Histories -/

/-- What follows an operation that does not fail does not fail. -/
theorem run_discard {α : Type} {c : ArenaM F α} {e : Failure}
    (h : (c >>= fun _ => (pure () : ArenaM F Unit)).run.run a = (.error e, a')) :
    c.run.run a = (.error e, a') := by
  rw [run_bind] at h
  cases run : c.run.run a with
  | mk res b =>
      rw [run] at h
      cases res with
      | error e' =>
          cases h
          rfl
      | ok x => cases h

/-- Recording inputs does not fail once the arena can hold them. -/
theorem run_mapM_newIndependent (array : Nat) (positions : List Nat) (a : Arena F) :
    ∃ vs a', (positions.mapM fun position => newIndependent array position).run.run a =
      (.ok vs, a') := by
  induction positions generalizing a with
  | nil => exact ⟨[], a, rfl⟩
  | cons position positions ih =>
      obtain ⟨vs, a', run⟩ := ih (a.pushed ⟨.independent, [], [array, position], false⟩)
      have one : (newIndependent array position).run.run a = (.ok (.node (a.handle a.size)),
        a.pushed ⟨.independent, [], [array, position], false⟩) := rfl
      exact ⟨_, a', by rw [List.mapM_cons, run_bind_ok one, run_bind_ok run]; rfl⟩

section

variable [Scalar F]

theorem Call.moves (c : Call F) : Moves (fun _ => True) c.run := by
  cases c with
  | push kind args info => exact (moves_push trivial).bind fun _ => moves_pure ()
  | newIndependent array position =>
      exact (moves_newIndependent trivial).bind fun _ => moves_pure ()
  | newIndependents array count =>
      exact (moves_newIndependents count fun _ => trivial).bind fun _ => moves_pure ()
  | append target args => exact moves_append target args
  | markOverwritten r => exact moves_markOverwritten r
  | addPattern p iterations => exact (moves_addPattern p iterations).bind fun _ => moves_pure ()

/-- A call that fails leaves the arena as it was. -/
theorem Call.run_error {c : Call F} {e : Failure} (h : c.run.run.run a = (.error e, a')) :
    a' = a := by
  cases c with
  | push kind args info =>
      have h := run_discard h
      rcases run_push kind args info a with ⟨e', run⟩ | ⟨-, ⟨-, i, -, -, run⟩ | ⟨-, run⟩⟩ <;>
        cases run.symm.trans h
      rfl
  | newIndependent array position => cases h
  | newIndependents array count =>
      have h := run_discard h
      rw [Arena.newIndependents, checkExtent] at h
      split at h
      case isTrue =>
          obtain ⟨vs, b, run⟩ := run_mapM_newIndependent array (List.range count) a
          cases run.symm.trans h
      case isFalse =>
          cases h
          rfl
  | append target args =>
      rcases run_append target args a with ⟨e', run⟩ | ⟨n, -, -, -, -, run⟩ <;>
        cases run.symm.trans h
      rfl
  | markOverwritten r =>
      rcases run_markOverwritten r a with ⟨e', run⟩ | ⟨-, run⟩ <;> cases run.symm.trans h
      rfl
  | addPattern p iterations =>
      have h := run_discard h
      rw [run_addPattern] at h
      split at h <;> cases h

theorem steps_after (a : Arena F) (calls : List (Call F)) :
    a.Steps (fun _ => True) (a.after calls) := by
  induction calls generalizing a with
  | nil => exact .refl
  | cons c calls ih => exact (c.moves a).trans (ih _)

theorem after_append (a : Arena F) (calls later : List (Call F)) :
    a.after (calls ++ later) = (a.after calls).after later :=
  List.foldl_append

/-- Every change is one that a call makes. -/
theorem Step.exists_call {shape : Node F → Prop} (h : a.Step shape a') :
    ∃ c : Call F, (c.run.run.run a).2 = a' := by
  cases h with
  | node n shaped own plain fresh =>
      refine ⟨.push n.kind n.args n.info, ?_⟩
      rw [Call.run, run_bind_ok (run_push_fresh own fresh), ← plain]
      rfl
  | arguments target n args found appendable own away =>
      refine ⟨.append target args, ?_⟩
      rw [Call.run, run_append_away found appendable own away]
  | mark r own =>
      refine ⟨.markOverwritten r, ?_⟩
      rcases run_markOverwritten r a with ⟨e, run⟩ | ⟨-, run⟩
      · have look : (liftM (a.check r) : ArenaM F Unit).run.run a = (.ok (), a) := by
          rw [run_lift, check, own]
          rfl
        cases run.symm.trans ((run_get_bind ..).trans (run_bind_ok look))
      · rw [Call.run, run]
  | pattern p n fresh =>
      have run := run_addPattern p n a
      rw [fresh] at run
      refine ⟨.addPattern p n, ?_⟩
      rw [Call.run, run_bind_ok run]
      rfl

theorem Steps.exists_calls {shape : Node F → Prop} (h : a.Steps shape a') :
    ∃ calls : List (Call F), a.after calls = a' := by
  induction h with
  | refl => exact ⟨[], rfl⟩
  | tail _ step ih =>
      obtain ⟨calls, rfl⟩ := ih
      obtain ⟨c, rfl⟩ := step.exists_call
      exact ⟨calls ++ [c], by rw [after_append]; rfl⟩

/-- After any calls the arguments of every node are nodes of the arena and no
node depends on itself; nothing that was recorded is lost or changed by later
calls, but for arguments of nodes that collect them; and a call that fails
changes nothing. -/
theorem history (id : Nat) (calls : List (Call F)) :
    ((empty id).after calls).Acyclic ∧ ((empty id).after calls).Owned ∧
      (∀ later, ((empty id).after calls).Continues ((empty id).after (calls ++ later))) ∧
      ∀ (c : Call F) (e : Failure) (a : Arena F),
        c.run.run.run ((empty id).after calls) = (.error e, a) → a = (empty id).after calls := by
  have steps := steps_after (empty id) calls
  refine ⟨steps.acyclic (owned_empty id) (acyclic_empty id), steps.owned (owned_empty id),
    fun later => ?_, fun c e a run => c.run_error run⟩
  rw [after_append]
  exact (steps_after _ later).continues

end

end Arena

end LoopDiff
