import LoopDiff.Loop.Scope
import LoopDiff.Proofs.Graph.History
import LoopDiff.Proofs.Graph.Operations

/-!
# LoopDiff.Proofs.Loop.Recordings

What recordings leave of an arena.

A recording is made of inputs, operations and operations on loops, in any
order and with any arguments (`Arena.Traces`).  All of them change the arena
by steps that add nodes of two sorts: nodes of loops and branches, and nodes
that compute a number from as many arguments as they need.

The second sort are the nodes that a tape has entries for
(`Kind.isStraight`).  They never receive arguments later, so their arguments
come before them, even though the graph as a whole is not ordered by position
(`Traced.ordered`).
-/

namespace LoopDiff

open Std

variable {F : Type}

/-! ## Recordings that move -/

namespace Recording

open Arena (Steps)

variable [Scalar F] {α β : Type} {shape : Node F → Prop}

/-- A recording that changes an arena by steps, whatever its outcome. -/
def Moves (shape : Node F → Prop) (c : Recording F α) : Prop :=
  ∀ a : Arena F, ∃ r a', c.run.run (some a) = (r, some a') ∧ a.Steps shape a'

theorem moves_pure (x : α) : Moves shape (pure x : Recording F α) := fun a => ⟨_, a, rfl, .refl⟩

theorem moves_throw (e : Failure) : Moves shape (throw e : Recording F α) :=
  fun a => ⟨_, a, rfl, .refl⟩

theorem moves_present (x? : Option α) : Moves shape (present x? : Recording F α) := by
  cases x? with
  | none => exact moves_throw _
  | some x => exact moves_pure x

theorem Moves.bind {c : Recording F α} {f : α → Recording F β} (hc : Moves shape c)
    (hf : ∀ x, Moves shape (f x)) : Moves shape (c >>= f) := by
  intro a
  obtain ⟨r, a', run, steps⟩ := hc a
  have runs := Recording.run_bind_some (f := f) run
  cases r with
  | error e => exact ⟨_, a', runs, steps⟩
  | ok x =>
      obtain ⟨r, a'', run', steps'⟩ := hf x a'
      exact ⟨r, a'', runs.trans run', steps.trans steps'⟩

theorem moves_reporting {c : ArenaM F α} (hc : Arena.Moves shape c) : Moves shape (reporting c) :=
  fun a => ⟨_, _, rfl, hc a⟩

theorem moves_operating {c : ArenaM F α} (hc : Arena.Moves shape c) :
    Moves shape (operating c) := by
  intro a
  obtain ⟨r, a', run, steps⟩ := moves_reporting hc a
  rw [operating, ExceptT.run_tryCatch, StateT.run_bind, run]
  cases r <;> exact ⟨_, a', rfl, steps⟩

theorem moves_foldlM {σ : Type} {f : σ → α → Recording F σ} (hf : ∀ s x, Moves shape (f s x))
    (s : σ) (xs : List α) : Moves shape (xs.foldlM f s) := by
  induction xs generalizing s with
  | nil => exact moves_pure s
  | cons x xs ih =>
      rw [List.foldlM_cons]
      exact (hf s x).bind ih

theorem moves_mapM {f : α → Recording F β} (hf : ∀ x, Moves shape (f x)) (xs : List α) :
    Moves shape (xs.mapM f) := by
  induction xs with
  | nil => exact moves_pure []
  | cons x xs ih =>
      rw [List.mapM_cons]
      exact (hf x).bind fun y => ih.bind fun ys => moves_pure (y :: ys)

theorem moves_forM {f : α → Recording F PUnit} (hf : ∀ x, Moves shape (f x)) (xs : List α) :
    Moves shape (xs.forM f) := by
  induction xs with
  | nil => exact moves_pure ()
  | cons x xs ih => exact (hf x).bind fun _ => ih

theorem Moves.runIn {c : Recording F α} (hc : Moves shape c) (a : Arena F) :
    a.Steps shape (c.runIn a).2 := by
  obtain ⟨r, a', run, steps⟩ := hc a
  rw [Recording.runIn, run]
  exact steps

end Recording

/-! ## Kinds of a tape -/

/-- Whether a tape has an entry for nodes of this kind. -/
def Kind.isStraight : Kind → Bool
  | independent | assign | synonym | op _ | compound _ => true
  | _ => false

/-- A node of a loop or a branch, an input, or a node that computes a number
from its arguments. -/
def Node.Fit (n : Node F) : Prop :=
  n.kind.isStraight = true → n.Computes ∨
    n.kind = .independent ∧ n.args = [] ∧ ∃ array position, n.info = [array, position]

theorem Node.fit_of_computes (n : Node F) (h : n.Computes) : n.Fit := fun _ => .inl h

theorem Node.fit_of_kind {n : Node F} (h : n.kind.isStraight = false) : n.Fit :=
  fun straight => absurd straight (h ▸ Bool.false_ne_true)

/-! ## Loops -/

namespace LoopScope

open Recording

variable [Scalar F]

theorem moves_push {kind : Kind} {args : List (Value F)} {info : List Nat}
    (loop : kind.isStraight = false) : Moves Node.Fit (Recording.push kind args info) :=
  moves_reporting (Arena.moves_push (Node.fit_of_kind loop))

/-! ### Nodes of other shapes -/

section

variable {shape : Node F → Prop}

theorem moves_pushShaped {kind : Kind} (shaped : ∀ n : Node F, n.kind = kind → shape n)
    (args : List (Value F)) (info : List Nat) : Moves shape (Recording.push kind args info) :=
  moves_reporting (Arena.moves_push (shaped _ rfl))

theorem moves_detect (s : LoopScope) (table : TreeMap Nat Nat) :
    Moves shape (s.detect (F := F) table) :=
  (moves_present _).bind fun p => moves_reporting (Arena.moves_addPattern p _)

theorem moves_repeated (computes : ∀ n : Node F, n.Computes → shape n) (v : Value F)
    (count : Nat) : Moves shape (repeated v count) :=
  moves_foldlM (fun sum _ => moves_reporting ((Arena.admits_moves computes).binary .add sum v)) v _

/-- The write of one part. -/
theorem moves_partWrite (s : LoopScope) (computes : ∀ n : Node F, n.Computes → shape n)
    (writes : ∀ n : Node F, n.kind = .indexedWrite → shape n) (v : Value F) (part : Part) :
    Moves shape (do
      let w ← repeated v part.1
      let p ← s.detect part.2
      s.writeNode w p true) :=
  (moves_repeated computes v _).bind fun _ => (moves_detect s _).bind fun _ =>
    moves_pushShaped writes _ _

theorem moves_extend (results : ∀ n : Node F, n.kind = .branchResult → shape n)
    (skeleton : Skeleton) (writes : List NodeRef) :
    Moves shape (extend (F := F) skeleton writes) :=
  moves_forM (fun _ => (moves_pushShaped results _ _).bind fun _ =>
    moves_reporting (Arena.moves_append _ _)) _

end

/-! ### Nodes that a tape can do without -/

theorem moves_begin (loop iterations : Nat) :
    Moves Node.Fit (LoopScope.begin (F := F) loop iterations) :=
  (moves_push rfl).bind fun _ => (moves_push rfl).bind fun _ => moves_pure _

variable (s : LoopScope)

theorem moves_pattern (p : Pattern) : Moves Node.Fit (s.pattern (F := F) p) :=
  moves_reporting (Arena.moves_addPattern p _)

theorem moves_read (array : Nat) (p : Pattern) : Moves Node.Fit (s.read (F := F) array p) :=
  (s.moves_pattern p).bind fun _ => (moves_push rfl).bind fun _ => moves_pure _

theorem moves_writeNode (v : Value F) (pattern : Nat) (accumulate : Bool) :
    Moves Node.Fit (s.writeNode v pattern accumulate) :=
  moves_push rfl

theorem moves_write (v : Value F) (pattern : Nat) (accumulate : Bool) :
    Moves Node.Fit (s.write v pattern accumulate) :=
  (s.moves_writeNode v pattern accumulate).bind fun _ => moves_pure _

theorem moves_branchNode (start : Option NodeRef) (iterations : List Nat) (taken : IndexSet)
    (earlier : List (Value F)) : Moves Node.Fit (s.branchNode start iterations taken earlier) := by
  cases start with
  | none => exact (moves_push rfl).bind fun _ => moves_push rfl
  | some start =>
      rw [branchNode]
      split
      case isTrue => exact moves_push rfl
      case isFalse => exact (moves_push rfl).bind fun _ => moves_push rfl

theorem moves_addBranch (p : Progress F) (iterations : List Nat) (write : NodeRef) :
    Moves Node.Fit (s.addBranch p iterations write) :=
  (s.moves_branchNode _ _ _ _).bind fun _ => (moves_push rfl).bind fun _ => moves_pure _

theorem moves_newConditional (partition : Partition) (writes : List NodeRef) :
    Moves Node.Fit (s.newConditional (F := F) partition writes) :=
  (moves_foldlM (fun p (iterations, write) => s.moves_addBranch p iterations write) _ _).bind
    fun _ => (moves_push rfl).bind fun _ => moves_pure _

theorem moves_inBranches (v : Value F) (groups : TreeMap Nat (TreeMap Nat Nat)) :
    Moves Node.Fit (place.inBranches s v groups) := by
  refine (moves_mapM (s.moves_partWrite Node.fit_of_computes
    (fun n kind => Node.fit_of_kind (kind ▸ rfl)) v) _).bind fun writes => ?_
  split
  case h_1 =>
      exact (moves_extend (fun n kind => Node.fit_of_kind (kind ▸ rfl)) _ _).bind fun _ =>
        moves_pure _
  case h_2 => exact (s.moves_newConditional _ _).bind fun _ => moves_pure _

theorem moves_place (claims : Claims) (v : Value F) : Moves Node.Fit (s.place claims v) := by
  rw [place]
  split
  case isTrue => exact fun a => ⟨_, a, rfl, .refl⟩
  case isFalse =>
      dsimp only
      split
      case h_1 =>
          split
          case isTrue =>
              exact (moves_repeated Node.fit_of_computes v _).bind fun _ =>
                (s.moves_detect _).bind fun _ => moves_pure _
          case isFalse => exact s.moves_inBranches v _
      case h_2 => exact s.moves_inBranches v _

theorem moves_contribute (claims : Claims) (v : Value F) :
    Moves Node.Fit (s.contribute claims v) := by
  rw [contribute]
  split
  case isTrue => exact moves_pure s
  case isFalse =>
      refine (s.moves_place claims v).bind fun placed => ?_
      match placed with
      | (s, .everywhere v p) => exact s.moves_write v p true
      | (s, .conditional endIf) => exact moves_pure _

theorem moves_close : Moves Node.Fit (s.close (F := F)) := by
  rw [close]
  split
  case isTrue => exact moves_pure _
  case isFalse => exact (moves_push rfl).bind fun _ => moves_pure _

end LoopScope

/-! ## Recordings -/

/-- An operation on a loop.  Its scope may be any, also that of a loop of
another arena. -/
inductive LoopScope.Call (F : Type) where
  | begin (loop iterations : Nat)
  | pattern (s : LoopScope) (p : Pattern)
  | read (s : LoopScope) (array : Nat) (p : Pattern)
  | write (s : LoopScope) (v : Value F) (pattern : Nat) (accumulate : Bool)
  | place (s : LoopScope) (claims : Claims) (v : Value F)
  | contribute (s : LoopScope) (claims : Claims) (v : Value F)
  | close (s : LoopScope)

variable [Scalar F]

/-- Records an operation on a loop. -/
def LoopScope.Call.run : LoopScope.Call F → Recording F Unit
  | .begin loop iterations => do
    let _ ← LoopScope.begin loop iterations
    return ()
  | .pattern s p => do
    let _ ← s.pattern p
    return ()
  | .read s array p => do
    let _ ← s.read array p
    return ()
  | .write s v p accumulate => do
    let _ ← s.write v p accumulate
    return ()
  | .place s claims v => do
    let _ ← s.place claims v
    return ()
  | .contribute s claims v => do
    let _ ← s.contribute claims v
    return ()
  | .close s => do
    let _ ← s.close
    return ()

theorem LoopScope.Call.moves (c : LoopScope.Call F) : Recording.Moves Node.Fit c.run := by
  cases c with
  | begin loop iterations =>
      exact (LoopScope.moves_begin (F := F) loop iterations).bind fun _ => Recording.moves_pure _
  | pattern s p => exact (s.moves_pattern p).bind fun _ => Recording.moves_pure _
  | read s array p => exact (s.moves_read array p).bind fun _ => Recording.moves_pure _
  | write s v p accumulate =>
      exact (s.moves_write v p accumulate).bind fun _ => Recording.moves_pure _
  | place s claims v => exact (s.moves_place claims v).bind fun _ => Recording.moves_pure _
  | contribute s claims v =>
      exact (s.moves_contribute claims v).bind fun _ => Recording.moves_pure _
  | close s => exact s.moves_close.bind fun _ => Recording.moves_pure _

/-- The operation as an operator on the values of the active arena.  There is
none that gives a number a node. -/
def Operation.operator : Operation (Value F) → Recording F (Value F)
  | binary op v w => Recording.binary (.binary op) v w
  | unary op v => Recording.unary (.unary op) v
  | powi v n => Recording.powi v n
  | compound op slot v => Recording.compound op slot v
  | toNode v => Recording.reporting (Value.toNode v)

theorem Operation.moves_operator (s : Operation (Value F)) :
    Recording.Moves Node.Fit s.operator := by
  have record := Arena.admits_moves (F := F) Node.fit_of_computes
  cases s with
  | binary op v w =>
      rw [operator, Recording.binary.eq_def]
      split
      case h_1 => exact Recording.moves_pure _
      case h_2 => exact Recording.moves_operating (record.binary op v w)
  | unary op v =>
      cases v with
      | const x => exact Recording.moves_pure _
      | node r => exact Recording.moves_operating (record.unary op (.node r))
  | powi v n =>
      cases v with
      | const x => exact Recording.moves_pure _
      | node r => exact Recording.moves_operating (record.powi (.node r) n)
  | compound op slot v =>
      rw [operator, Recording.compound.eq_def]
      split
      case h_1 => exact Recording.moves_pure _
      case h_2 => exact Recording.moves_operating (record.compound op slot v)
  | toNode v => exact Recording.moves_reporting (record.toNode v)

namespace Arena

/-- One step of a recording: inputs, an operation, or an operation on a loop,
whether it succeeds or not. -/
inductive Traces : Arena F → Arena F → Prop where
  | independent (a : Arena F) (array position : Nat) :
      Traces a ((newIndependent array position).run.run a).2
  | independents (a : Arena F) (array n : Nat) :
      Traces a ((newIndependents array n).run.run a).2
  | operation (a : Arena F) (s : Operation (Value F)) : Traces a (s.record.run.run a).2
  | operator (a : Arena F) (s : Operation (Value F)) : Traces a (s.operator.runIn a).2
  | loop (a : Arena F) (c : LoopScope.Call F) : Traces a (c.run.runIn a).2

/-- An arena that some recording leads to. -/
def Traced (a : Arena F) : Prop := ∃ id, Relation.ReflTransGen Traces (empty id) a

/-- Every node that a tape has an entry for is an input, or computes a number
from nodes that come before it. -/
structure Ordered (a : Arena F) : Prop where
  node {i : Nat} {n : Node F} : a.nodes[i]? = some n → n.Fit
  before {i : Nat} {n : Node F} {r : NodeRef} : a.nodes[i]? = some n →
    n.kind.isStraight = true → .node r ∈ n.args → r.index < i

variable {a a' : Arena F}

theorem Traces.steps (h : a.Traces a') : a.Steps Node.Fit a' := by
  have input (array position : Nat) :
      (⟨.independent, [], [array, position], false⟩ : Node F).Fit :=
    fun _ => .inr ⟨rfl, rfl, array, position, rfl⟩
  cases h with
  | independent array position => exact moves_newIndependent (input array position) a
  | independents array n => exact moves_newIndependents n (input array) a
  | operation s => exact s.admits_record (admits_moves Node.fit_of_computes) a
  | operator s => exact s.moves_operator.runIn a
  | loop c => exact c.moves.runIn a

theorem Step.ordered (h : a.Step Node.Fit a') (ordered : a.Ordered) : a'.Ordered := by
  cases h with
  | node n fit own =>
      refine ⟨fun hm => ?_, fun hm straight hr => ?_⟩
      · rcases getElem?_push_cases hm with hm | ⟨-, rfl⟩
        · exact ordered.node hm
        · exact fit
      · rcases getElem?_push_cases hm with hm | ⟨rfl, rfl⟩
        · exact ordered.before hm straight hr
        · exact (owns_iff.mp (own _ hr)).2
  | arguments target n args found appendable own away =>
      -- a node that collects arguments has no entry in a tape
      have same {i : Nat} {m : Node F} (hm : (a.extended target args).nodes[i]? = some m)
          (straight : m.kind.isStraight = true) : a.nodes[i]? = some m := by
        rw [node_extended, Option.map_eq_some_iff] at hm
        obtain ⟨k, hk, rfl⟩ := hm
        split
        case isTrue here =>
            obtain ⟨-, hn⟩ := node_eq_ok_iff.mp found
            rw [here, hk] at hn
            cases hn
            cases kind : n.kind <;>
              simp [kind, Kind.isStraight, Kind.isAppendable] at straight appendable
        case isFalse => simpa using hk
      refine ⟨fun {i m} hm straight => ?_, fun {i m r} hm straight hr => ?_⟩
      · exact ordered.node (same hm straight) straight
      · exact ordered.before (same hm straight) straight hr
  | mark r =>
      refine ⟨fun {i m} hm => ?_, fun {i m s} hm straight hs => ?_⟩ <;>
        (rw [node_marked, Option.map_eq_some_iff] at hm; obtain ⟨k, hk, rfl⟩ := hm)
      · exact ordered.node (n := k) hk
      · exact ordered.before hk straight hs
  | pattern p n => exact ⟨ordered.node, ordered.before⟩

theorem Traced.owned (h : a.Traced) : a.Owned := by
  obtain ⟨id, traces⟩ := h
  induction traces with
  | refl => exact owned_empty id
  | tail _ step ih => exact step.steps.owned ih

theorem Traced.ordered (h : a.Traced) : a.Ordered := by
  obtain ⟨id, traces⟩ := h
  induction traces with
  | refl => exact ⟨fun hn => by simp [empty] at hn, fun hn => by simp [empty] at hn⟩
  | tail _ step ih => exact step.steps.invariant ih fun _ _ step ih => step.ordered ih

end Arena

end LoopDiff
