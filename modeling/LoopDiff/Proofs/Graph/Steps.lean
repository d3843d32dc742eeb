import LoopDiff.Proofs.Graph.Paths
import LoopDiff.Proofs.Graph.Straight

/-!
# LoopDiff.Proofs.Graph.Steps

What can happen to an arena.

Every operation on an arena comes down to four changes (`Arena.Step`): a new
node whose arguments are there, more arguments for a node that collects them,
a mark, and a pattern.  An elementary operation and a pattern are only added
if they are not found.  What holds of an arena after any of these holds of it
after any sequence of operations, so an invariant is shown once for a step.

A run of an operation is one of the changes or none, and a run that fails is
none: all that can fail is looked at before the arena is touched
(`run_push`, `run_append`, `run_markOverwritten`).
-/

namespace LoopDiff

variable {F : Type}

namespace Arena

/-! ## Steps -/

/-- The arena with more arguments for a node. -/
def extended (a : Arena F) (target : NodeRef) (args : List (Value F)) : Arena F :=
  { a with nodes := a.nodes.modify target.index fun n => { n with args := n.args ++ args } }

section

variable [Scalar F]

/-- One change of an arena.  Nodes other than those of a certain `shape` are
not added. -/
inductive Step (shape : Node F → Prop) (a : Arena F) : Arena F → Prop where
  | node (n : Node F) (shaped : shape n) (own : ∀ r, .node r ∈ n.args → a.owns r = true)
      (plain : n.overwritten = false)
      (fresh : ∀ code, n.kind = .op code → a.find? n.kind n.args n.info = none) :
      Step shape a (a.pushed n)
  | arguments (target : NodeRef) (n : Node F) (args : List (Value F))
      (found : a.node target = .ok n) (appendable : n.kind.isAppendable = true)
      (own : ∀ r, .node r ∈ args → a.owns r = true)
      (away : ∀ r, .node r ∈ args → a.reaches r target = .ok false) :
      Step shape a (a.extended target args)
  | mark (r : NodeRef) (own : a.owns r = true) : Step shape a (a.marked r)
  | pattern (p : Pattern) (n : Nat) (fresh : a.findPattern? p n = none) :
      Step shape a (a.registered p n)

/-- Any number of changes. -/
abbrev Steps (shape : Node F → Prop) : Arena F → Arena F → Prop :=
  Relation.ReflTransGen (Step shape)

theorem Step.weaken {shape shape' : Node F → Prop} {a a' : Arena F} (h : a.Step shape a')
    (weaker : ∀ n, shape n → shape' n) : a.Step shape' a' := by
  cases h with
  | node n shaped own plain fresh => exact .node n (weaker n shaped) own plain fresh
  | arguments target n args found appendable own away =>
      exact .arguments target n args found appendable own away
  | mark r own => exact .mark r own
  | pattern p n fresh => exact .pattern p n fresh

/-- What every step keeps is there after any number of them. -/
theorem Steps.invariant {shape : Node F → Prop} {I : Arena F → Prop} {a a' : Arena F}
    (h : a.Steps shape a') (init : I a)
    (step : ∀ b b' : Arena F, b.Step shape b' → I b → I b') : I a' := by
  induction h with
  | refl => exact init
  | tail _ change ih => exact step _ _ change ih

theorem Steps.weaken {shape shape' : Node F → Prop} {a a' : Arena F} (h : a.Steps shape a')
    (weaker : ∀ n, shape n → shape' n) : a.Steps shape' a' :=
  h.invariant .refl fun _ _ step steps => steps.tail (step.weaken weaker)

end

/-- The nodes of an extended arena. -/
theorem node_extended (a : Arena F) (target : NodeRef) (args : List (Value F)) (i : Nat) :
    (a.extended target args).nodes[i]? = (a.nodes[i]?).map fun n =>
      { n with args := n.args ++ if target.index = i then args else [] } := by
  rw [extended, Array.getElem?_modify]
  split
  case isTrue => simp
  case isFalse => cases h : a.nodes[i]? <;> simp

/-! ## Runs -/

variable {α β : Type}

theorem run_lift (c : Except Failure α) (a : Arena F) :
    (liftM c : ArenaM F α).run.run a = (c, a) := by
  cases c <;> rfl

theorem run_get_bind (f : Arena F → ArenaM F β) (a : Arena F) :
    (get >>= f).run.run a = (f a).run.run a :=
  rfl

theorem run_bind_ok {c : ArenaM F α} {f : α → ArenaM F β} {a a' : Arena F} {x : α}
    (h : c.run.run a = (.ok x, a')) : (c >>= f).run.run a = (f x).run.run a' := by
  rw [run_bind, h]

theorem run_bind_error {c : ArenaM F α} {f : α → ArenaM F β} {a a' : Arena F} {e : Failure}
    (h : c.run.run a = (.error e, a')) : (c >>= f).run.run a = (.error e, a') := by
  rw [run_bind, h]

theorem owns_of_checkValue {a : Arena F} {args : List (Value F)}
    (h : ∀ v ∈ args, a.checkValue v = .ok ()) (r : NodeRef) (hr : .node r ∈ args) :
    a.owns r = true :=
  owns_iff.mpr (checkValue_node (h _ hr))

theorem records_iff [Scalar F] {n : Node F} {kind : Kind} {args : List (Value F)}
    {info : List Nat} : n.records kind args info = true ↔
      Value.sameAll n.args args = true ∧ n.info = info ∧ n.kind = kind := by
  simp only [Node.records, Bool.and_eq_true, beq_iff_eq, and_assoc]

/-- What is found is recorded. -/
theorem exists_of_find? [Scalar F] {a : Arena F} {kind : Kind} {args : List (Value F)}
    {info : List Nat} {i : Nat} (h : a.find? kind args info = some i) :
    ∃ n, a.nodes[i]? = some n ∧ n.records kind args info = true :=
  (exists_of_findFrom? h).2

/-- A node is recorded, or, if it is an elementary operation, found where it
was recorded before. -/
theorem run_push [Scalar F] (kind : Kind) (args : List (Value F)) (info : List Nat) (a : Arena F) :
    (∃ e, (push kind args info).run.run a = (.error e, a)) ∨
      (∀ r, .node r ∈ args → a.owns r = true) ∧
        ((∃ code i, kind = .op code ∧ a.find? kind args info = some i ∧
            (push kind args info).run.run a = (.ok (a.handle i), a)) ∨
          (∀ code, kind = .op code → a.find? kind args info = none) ∧
            (push kind args info).run.run a =
              (.ok (a.handle a.size), a.pushed ⟨kind, args, info, false⟩)) := by
  obtain ⟨res, run, all⟩ := run_checkValues a a args
  cases res with
  | error e => exact .inl ⟨e, (run_get_bind ..).trans (run_bind_error run)⟩
  | ok _ =>
      refine .inr ⟨owns_of_checkValue (all rfl), ?_⟩
      have steps : (push kind args info).run.run a = _ :=
        (run_get_bind ..).trans (run_bind_ok run)
      rw [steps]
      cases kind with
      | op code =>
          dsimp only
          cases found : a.find? (.op code) args info with
          | some i => exact .inl ⟨code, i, rfl, rfl, rfl⟩
          | none => exact .inr ⟨fun _ _ => rfl, rfl⟩
      | _ => exact .inr ⟨nofun, rfl⟩

/-- Whether an argument leads back to a node is looked at in the arena as it
is, and only if none does is anything added. -/
theorem run_checkAway (a b : Arena F) (target : NodeRef) (args : List (Value F)) :
    ∃ res, ((args.forM fun
        | .const _ => pure ()
        | .node r => do
          if ← a.reaches r target then
            refuse (.invalidGraph (.cycle r.index target.index)) : ArenaM F Unit).run.run b) =
        (res, b) ∧ (res = .ok () → ∀ r, .node r ∈ args → a.reaches r target = .ok false) := by
  induction args with
  | nil => exact ⟨.ok (), rfl, fun _ _ hr => absurd hr List.not_mem_nil⟩
  | cons v args ih =>
      obtain ⟨res, run, all⟩ := ih
      cases v with
      | const x =>
          refine ⟨res, run, fun ok r hr => all ok r ?_⟩
          simpa using hr
      | node s =>
          rw [List.forM]
          dsimp only
          cases hs : a.reaches s target with
          | error e =>
              refine ⟨.error e, rfl, fun ok => ?_⟩
              cases ok
          | ok back =>
              cases back with
              | true =>
                  refine ⟨_, rfl, fun ok => ?_⟩
                  cases ok
              | false =>
                  refine ⟨res, run, fun ok r hr => ?_⟩
                  rcases List.mem_cons.mp hr with eq | hr
                  · cases eq
                    exact hs
                  · exact all ok r hr

/-- Arguments are added to a node that collects them, if none of them leads
back to it. -/
theorem run_append (target : NodeRef) (args : List (Value F)) (a : Arena F) :
    (∃ e, (append target args).run.run a = (.error e, a)) ∨
      ∃ n, a.node target = .ok n ∧ n.kind.isAppendable = true ∧
        (∀ r, .node r ∈ args → a.owns r = true) ∧
        (∀ r, .node r ∈ args → a.reaches r target = .ok false) ∧
        (append target args).run.run a = (.ok (), a.extended target args) := by
  obtain ⟨res, found⟩ : ∃ res, a.node target = res := ⟨_, rfl⟩
  have look : (liftM (a.node target) : ArenaM F (Node F)).run.run a = (res, a) :=
    found ▸ run_lift ..
  cases res with
  | error e => exact .inl ⟨e, (run_get_bind ..).trans (run_bind_error look)⟩
  | ok n =>
      have steps : (append target args).run.run a = _ :=
        (run_get_bind ..).trans (run_bind_ok look)
      rw [steps]
      cases appendable : n.kind.isAppendable with
      | false => exact .inl ⟨_, rfl⟩
      | true =>
          simp only [Bool.not_true, Bool.false_eq_true, if_false]
          obtain ⟨res, run, all⟩ := run_checkValues a a args
          cases res with
          | error e => exact .inl ⟨e, run_bind_error run⟩
          | ok _ =>
              rw [run_bind_ok run]
              obtain ⟨res, run', all'⟩ := run_checkAway a a target args
              cases res with
              | error e => exact .inl ⟨e, run_bind_error run'⟩
              | ok _ =>
                  exact .inr ⟨n, found, appendable, owns_of_checkValue (all rfl), all' rfl,
                    run_bind_ok run'⟩

/-- A node of the arena is marked. -/
theorem run_markOverwritten (r : NodeRef) (a : Arena F) :
    (∃ e, (markOverwritten r).run.run a = (.error e, a)) ∨
      a.owns r = true ∧ (markOverwritten r).run.run a = (.ok (), a.marked r) := by
  cases own : a.owns r with
  | false =>
      have look : ((liftM (a.check r) : ArenaM F Unit).run.run a) =
          (.error (.error (.staleHandle r.arena r.index)), a) := by
        rw [run_lift, check, own]
        rfl
      exact .inl ⟨_, (run_get_bind ..).trans (run_bind_error look)⟩
  | true =>
      have look : ((liftM (a.check r) : ArenaM F Unit).run.run a) = (.ok (), a) := by
        rw [run_lift, check, own]
        rfl
      exact .inr ⟨rfl, (run_get_bind ..).trans (run_bind_ok look)⟩

/-! ## Runs that change something -/

/-- Values of an arena pass the check. -/
theorem run_checkOwned {a : Arena F} {args : List (Value F)}
    (own : ∀ r, .node r ∈ args → a.owns r = true) (b : Arena F) :
    ((args.forM fun v => (liftM (a.checkValue v) : ArenaM F Unit)).run.run b) = (.ok (), b) := by
  induction args with
  | nil => rfl
  | cons v args ih =>
      have here : a.checkValue v = .ok () := by
        cases v with
        | const x => rfl
        | node r => rw [checkValue, check, own r (List.mem_cons_self ..), if_pos rfl]
      rw [List.forM, here]
      exact ih fun r hr => own r (List.mem_cons_of_mem _ hr)

/-- A node is recorded if it need not be looked for, or is not found. -/
theorem run_push_fresh [Scalar F] {a : Arena F} {kind : Kind} {args : List (Value F)}
    {info : List Nat} (own : ∀ r, .node r ∈ args → a.owns r = true)
    (fresh : ∀ code, kind = .op code → a.find? kind args info = none) :
    (push kind args info).run.run a =
      (.ok (a.handle a.size), a.pushed ⟨kind, args, info, false⟩) := by
  have steps : (push kind args info).run.run a = _ :=
    (run_get_bind ..).trans (run_bind_ok (run_checkOwned own a))
  cases kind with
  | op code =>
      dsimp only at steps
      rw [fresh code rfl] at steps
      exact steps
  | _ => exact steps

/-- An elementary operation that is found is not recorded again. -/
theorem run_push_found [Scalar F] {a : Arena F} {code : OpCode} {args : List (Value F)}
    {info : List Nat} {i : Nat} (own : ∀ r, .node r ∈ args → a.owns r = true)
    (found : a.find? (.op code) args info = some i) :
    (push (.op code) args info).run.run a = (.ok (a.handle i), a) := by
  have steps : (push (.op code) args info).run.run a = _ :=
    (run_get_bind ..).trans (run_bind_ok (run_checkOwned own a))
  dsimp only at steps
  rw [found] at steps
  exact steps

/-- Arguments that do not lead back to a node that collects them are added. -/
theorem run_append_away {a : Arena F} {target : NodeRef} {n : Node F} {args : List (Value F)}
    (found : a.node target = .ok n) (appendable : n.kind.isAppendable = true)
    (own : ∀ r, .node r ∈ args → a.owns r = true)
    (away : ∀ r, .node r ∈ args → a.reaches r target = .ok false) :
    (append target args).run.run a = (.ok (), a.extended target args) := by
  have checked (args : List (Value F))
      (away : ∀ r, .node r ∈ args → a.reaches r target = .ok false) :
      ((args.forM fun
        | .const _ => pure ()
        | .node r => do
          if ← a.reaches r target then
            refuse (.invalidGraph (.cycle r.index target.index)) : ArenaM F Unit).run.run a) =
        (.ok (), a) := by
    induction args with
    | nil => rfl
    | cons v args ih =>
        have rest := ih fun r hr => away r (List.mem_cons_of_mem _ hr)
        cases v with
        | const x => exact rest
        | node r =>
            rw [List.forM]
            dsimp only
            rw [away r (List.mem_cons_self ..)]
            exact rest
  have look : (liftM (a.node target) : ArenaM F (Node F)).run.run a = (.ok n, a) :=
    found ▸ run_lift ..
  have steps : (append target args).run.run a = _ :=
    (run_get_bind ..).trans (run_bind_ok look)
  rw [steps, appendable]
  simp only [Bool.not_true, Bool.false_eq_true, if_false]
  rw [run_bind_ok (run_checkOwned own a)]
  exact run_bind_ok (checked args away)

/-! ## Computations -/

section

variable [Scalar F]

/-- A computation that changes an arena by steps, whatever its outcome. -/
def Moves (shape : Node F → Prop) (c : ArenaM F α) : Prop :=
  ∀ a : Arena F, a.Steps shape (c.run.run a).2

variable {shape : Node F → Prop}

theorem moves_pure (x : α) : Moves shape (pure x : ArenaM F α) := fun _ => .refl

theorem moves_lift (c : Except Failure α) : Moves shape (liftM c : ArenaM F α) := by
  intro a
  rw [run_lift]

theorem moves_get : Moves shape (get : ArenaM F (Arena F)) := fun _ => .refl

theorem Moves.bind {c : ArenaM F α} {f : α → ArenaM F β} (hc : Moves shape c)
    (hf : ∀ x, Moves shape (f x)) : Moves shape (c >>= f) := by
  intro a
  have first := hc a
  rw [run_bind]
  cases run : c.run.run a with
  | mk res a' =>
      rw [run] at first
      cases res with
      | error e => exact first
      | ok x => exact first.trans (hf x a')

theorem moves_mapM {f : α → ArenaM F β} (hf : ∀ x, Moves shape (f x)) (xs : List α) :
    Moves shape (xs.mapM f) := by
  induction xs with
  | nil => exact moves_pure []
  | cons x xs ih =>
      rw [List.mapM_cons]
      exact (hf x).bind fun y => ih.bind fun ys => moves_pure (y :: ys)

theorem moves_push {kind : Kind} {args : List (Value F)} {info : List Nat}
    (shaped : shape ⟨kind, args, info, false⟩) : Moves shape (push kind args info) := by
  intro a
  rcases run_push kind args info a with
    ⟨e, run⟩ | ⟨own, ⟨-, i, -, -, run⟩ | ⟨fresh, run⟩⟩ <;> rw [run]
  exact .single (.node _ shaped own rfl fresh)

theorem moves_newIndependent {array position : Nat}
    (shaped : shape ⟨.independent, [], [array, position], false⟩) :
    Moves shape (newIndependent array position : ArenaM F (Value F)) :=
  fun _ => .single (.node _ shaped nofun rfl nofun)

theorem moves_newIndependents {array : Nat} (n : Nat)
    (shaped : ∀ position, shape ⟨.independent, [], [array, position], false⟩) :
    Moves shape (newIndependents array n : ArenaM F (List (Value F))) := by
  rw [newIndependents, checkExtent]
  split
  case isTrue =>
      exact (moves_pure ()).bind fun _ =>
        moves_mapM (fun position => moves_newIndependent (shaped position)) _
  case isFalse => exact fun _ => .refl

theorem moves_append (target : NodeRef) (args : List (Value F)) :
    Moves shape (append target args) := by
  intro a
  rcases run_append target args a with ⟨e, run⟩ | ⟨n, found, appendable, own, away, run⟩ <;>
    rw [run]
  exact .single (.arguments target n args found appendable own away)

theorem moves_markOverwritten (r : NodeRef) : Moves shape (markOverwritten r : ArenaM F Unit) := by
  intro a
  rcases run_markOverwritten r a with ⟨e, run⟩ | ⟨own, run⟩ <;> rw [run]
  exact .single (.mark r own)

theorem moves_addPattern (p : Pattern) (n : Nat) :
    Moves shape (addPattern p n : ArenaM F Nat) := by
  intro a
  rw [run_addPattern]
  split
  case h_1 => exact .refl
  case h_2 fresh => exact .single (.pattern p n fresh)

/-- Arithmetic changes an arena by steps, if nodes that compute may be added. -/
theorem admits_moves (computes : ∀ n : Node F, n.Computes → shape n) :
    Admits (F := F) fun _ c => Moves shape c where
  pure := moves_pure
  lift := moves_lift
  get := moves_get
  bind := Moves.bind
  push shaped := moves_push (computes _ shaped)
  mark := moves_markOverwritten

end

end Arena

end LoopDiff
