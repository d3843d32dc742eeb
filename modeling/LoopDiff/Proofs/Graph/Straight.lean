import LoopDiff.Proofs.Graph.Denotation
import LoopDiff.Graph.Arithmetic

/-!
# LoopDiff.Proofs.Graph.Straight

Straight-line graphs.

A graph is straight if every node is a source, or computes a number from
nodes that come before it (`Arena.Straight`).  Arithmetic on recorded values
leaves a straight graph straight and preserves every number, whether it
succeeds or not (`Advances`).  In a straight graph whose sources have
numbers every node has one (`Straight.known?`).
-/

namespace LoopDiff

variable {F : Type}

/-! ## Nodes -/

namespace Node

/-- A node that computes a number from its arguments: it has as many of them
as its kind reads. -/
def Computes (n : Node F) : Prop :=
  match n.kind with
  | .assign | .op (.unary _) => ∃ v, n.args = [v]
  | .op .powi => ∃ v word, n.args = [v] ∧ n.info = [word]
  | .op (.binary _) | .compound _ => ∃ v w, n.args = [v, w]
  | _ => False

variable {n : Node F}

theorem Computes.overwrite (h : n.Computes) (flag : Bool) :
    { n with overwritten := flag }.Computes := h

theorem Computes.tier (h : n.Computes) : n.kind.tier = 0 := by
  cases kind : n.kind <;> first | rfl | (simp only [Computes, kind] at h)

theorem Computes.valueArgs (h : n.Computes) : n.valueArgs = n.args := by
  cases kind : n.kind <;> first | (simp only [Node.valueArgs, kind]; done) |
    (simp only [Computes, kind] at h)

/-- A node that computes has a number as soon as its arguments have. -/
theorem Computes.result? [Scalar F] (h : n.Computes) (p : Problem F) (it : Option Nat)
    {xs : List F} (len : xs.length = n.args.length) : ∃ x, n.result? p it xs = some x := by
  have one (v : Value F) (args : n.args = [v]) : ∃ x, xs = [x] := by
    rw [args] at len
    exact List.length_eq_one_iff.mp len
  have two (v w : Value F) (args : n.args = [v, w]) : ∃ x y, xs = [x, y] := by
    rw [args] at len
    exact List.length_eq_two.mp len
  cases kind : n.kind with
  | assign =>
      simp only [Computes, kind] at h
      obtain ⟨v, args⟩ := h
      obtain ⟨x, rfl⟩ := one v args
      exact ⟨x, by simp only [Node.result?, kind]⟩
  | compound op =>
      simp only [Computes, kind] at h
      obtain ⟨v, w, args⟩ := h
      obtain ⟨x, y, rfl⟩ := two v w args
      exact ⟨_, by simp only [Node.result?, kind]; rfl⟩
  | op code =>
      cases code with
      | unary op =>
          simp only [Computes, kind] at h
          obtain ⟨v, args⟩ := h
          obtain ⟨x, rfl⟩ := one v args
          exact ⟨_, by simp only [Node.result?, kind]; rfl⟩
      | powi =>
          simp only [Computes, kind] at h
          obtain ⟨v, word, args, info⟩ := h
          obtain ⟨x, rfl⟩ := one v args
          exact ⟨_, by simp only [Node.result?, kind, info]; rfl⟩
      | binary op =>
          simp only [Computes, kind] at h
          obtain ⟨v, w, args⟩ := h
          obtain ⟨x, y, rfl⟩ := two v w args
          exact ⟨_, by simp only [Node.result?, kind]; rfl⟩
      | _ => simp only [Computes, kind] at h
  | _ => simp only [Computes, kind] at h

end Node

/-- What an identity gives is an operand or zero. -/
theorem Value.eq_of_reduce [Scalar F] {op : OpCode} {l r v : Value F}
    (h : reduce op l r = .value v ∨ reduce op l r = .negation v) :
    v = l ∨ v = r ∨ v = .const Scalar.zero := by
  unfold reduce at h
  split at h <;> (repeat' split at h) <;> simp_all

/-! ## Straight graphs -/

namespace Arena

/-- Every node is a source of a certain kind, or computes a number from nodes
that come before it. -/
structure Straight (source : Kind → List Nat → Prop) (a : Arena F) : Prop where
  node {i : Nat} {n : Node F} : a.nodes[i]? = some n → n.Computes ∨ source n.kind n.info
  before {i : Nat} {n : Node F} {r : NodeRef} : a.nodes[i]? = some n → .node r ∈ n.args →
    r.arena = a.id ∧ r.index < i

variable {source : Kind → List Nat → Prop} {a : Arena F}

theorem straight_empty (id : Nat) : (empty id : Arena F).Straight source :=
  ⟨fun h => by simp [empty] at h, fun h => by simp [empty] at h⟩

/-- What passes the check of values. -/
theorem checkValue_node {r : NodeRef} (h : a.checkValue (.node r) = .ok ()) :
    r.arena = a.id ∧ r.index < a.size := by
  rw [checkValue, check] at h
  split at h
  case isTrue owns => simpa [Arena.owns] using owns
  case isFalse => cases h

theorem Straight.pushed {n : Node F} (h : a.Straight source)
    (kind : n.Computes ∨ source n.kind n.info)
    (own : ∀ v ∈ n.args, a.checkValue v = .ok ()) : (a.pushed n).Straight source := by
  refine ⟨fun hm => ?_, fun {i m r} hm hr => ?_⟩
  · rcases getElem?_push_cases hm with hm | ⟨-, rfl⟩
    · exact h.node hm
    · exact kind
  · rcases getElem?_push_cases hm with hm | ⟨rfl, rfl⟩
    · exact h.before hm hr
    · exact checkValue_node (own _ hr)

/-- A node that computes has a number if the nodes among its arguments have. -/
theorem known?_of_args [Scalar F] {inputs : List (Array F)} {it : Option Nat} {i : Nat}
    {n : Node F} (hn : a.nodes[i]? = some n) (computes : n.Computes)
    (before : ∀ r, .node r ∈ n.args → r.arena = a.id ∧ r.index < i)
    (args : ∀ r, .node r ∈ n.args → ∃ y, Problem.known? ⟨a, inputs⟩ it r.index = some y) :
    ∃ y, Problem.known? ⟨a, inputs⟩ it i = some y := by
  obtain ⟨ys, hys⟩ : ∃ ys, List.Forall₂ (fun v y => Problem.value? ⟨a, inputs⟩ it v = some y)
      n.valueArgs ys := by
    refine exists_forall₂ fun v hv => ?_
    cases v with
    | const x => exact ⟨_, rfl⟩
    | node r =>
        rw [computes.valueArgs] at hv
        obtain ⟨y, hy⟩ := args r hv
        exact ⟨y, by rw [Problem.value?, if_pos (before r hv).1, hy]⟩
  have len : (ys.map Prod.fst).length = n.args.length := by
    rw [List.length_map, ← hys.length_eq, computes.valueArgs]
  obtain ⟨x, hx⟩ := computes.result? ⟨a, inputs⟩ it len
  exact ⟨_, Problem.known?_eq_some_iff.mpr ⟨_, ys, hn,
    fun r hr => (before r (computes.valueArgs ▸ hr)).2, hys, hx, rfl⟩⟩

/-- A source has a number if its kind gives one. -/
theorem known?_of_source [Scalar F] {inputs : List (Array F)} {it : Option Nat} {i : Nat}
    {n : Node F} (hn : a.nodes[i]? = some n)
    (result : n.valueArgs = [] ∧ ∃ x, n.result? ⟨a, inputs⟩ it [] = some x) :
    ∃ y, Problem.known? ⟨a, inputs⟩ it i = some y := by
  obtain ⟨noArgs, x, hx⟩ := result
  exact ⟨_, Problem.known?_eq_some_iff.mpr ⟨_, [], hn, by simp [noArgs], by simp [noArgs], hx, rfl⟩⟩

/-- In a straight graph whose sources have numbers every node has one. -/
theorem Straight.known? [Scalar F] (h : a.Straight source) {inputs : List (Array F)}
    {it : Option Nat} (sources : ∀ (i : Nat) (n : Node F), a.nodes[i]? = some n →
      source n.kind n.info → n.valueArgs = [] ∧ ∃ x, n.result? ⟨a, inputs⟩ it [] = some x)
    {i : Nat} (lt : i < a.size) : ∃ y, Problem.known? ⟨a, inputs⟩ it i = some y := by
  induction i using Nat.strong_induction_on with
  | _ i ih =>
    have hn : a.nodes[i]? = some a.nodes[i] := Array.getElem?_eq_getElem lt
    rcases h.node hn with computes | isSource
    · refine known?_of_args hn computes (fun r => h.before hn) fun r hr => ?_
      have before := (h.before hn hr).2
      exact ih r.index before (before.trans lt)
    · exact known?_of_source hn (sources i _ hn isSource)

/-! ## Computations -/

/-- A computation that keeps graphs straight and preserves their numbers,
whatever its outcome. -/
def Advances {α : Type} (source : Kind → List Nat → Prop) (c : ArenaM F α) : Prop :=
  ∀ a : Arena F, a.Straight source →
    a.Preserves (c.run.run a).2 ∧ (c.run.run a).2.Straight source

variable {α β : Type}

theorem advances_pure (x : α) : Advances source (pure x : ArenaM F α) :=
  fun a h => ⟨.refl a, h⟩

theorem advances_lift (c : Except Failure α) : Advances source (liftM c : ArenaM F α) := by
  intro a h
  cases c <;> exact ⟨.refl a, h⟩

theorem advances_get : Advances source (get : ArenaM F (Arena F)) :=
  fun a h => ⟨.refl a, h⟩

theorem run_bind (c : ArenaM F α) (f : α → ArenaM F β) (a : Arena F) :
    (c >>= f).run.run a = match c.run.run a with
      | (.ok x, a') => (f x).run.run a'
      | (.error e, a') => (.error e, a') := by
  simp only [ExceptT.run_bind, StateT.run_bind]
  cases c.run.run a with
  | mk r a' => cases r <;> rfl

theorem Advances.bind {c : ArenaM F α} {f : α → ArenaM F β} (hc : Advances source c)
    (hf : ∀ x, Advances source (f x)) : Advances source (c >>= f) := by
  intro a h
  obtain ⟨kept, straight⟩ := hc a h
  rw [run_bind]
  cases hr : c.run.run a with
  | mk r a' =>
      rw [hr] at kept straight
      cases r with
      | error e => exact ⟨kept, straight⟩
      | ok x =>
          obtain ⟨kept', straight'⟩ := hf x a' straight
          exact ⟨kept.trans kept', straight'⟩

theorem preserves_pushed (a : Arena F) (n : Node F) : a.Preserves (a.pushed n) where
  id_eq := rfl
  node {_ m} hm _ := ⟨m.overwritten, getElem?_push_of_some hm n⟩
  pattern hp := hp

/-- A check of values leaves the arena alone, and passes only if they are
values of the arena. -/
theorem run_checkValues (a b : Arena F) (args : List (Value F)) :
    ∃ r, ((args.forM fun v => (liftM (a.checkValue v) : ArenaM F Unit)).run.run b) = (r, b) ∧
      (r = .ok () → ∀ v ∈ args, a.checkValue v = .ok ()) := by
  induction args with
  | nil => exact ⟨.ok (), rfl, fun _ _ hv => absurd hv List.not_mem_nil⟩
  | cons v args ih =>
      obtain ⟨r, run, all⟩ := ih
      cases hv : a.checkValue v with
      | error e =>
          refine ⟨.error e, ?_, nofun⟩
          rw [List.forM, hv]
          rfl
      | ok _ =>
          refine ⟨r, ?_, fun ok => List.forall_mem_cons.mpr ⟨hv, all ok⟩⟩
          rw [List.forM, hv]
          exact run

variable [Scalar F]

/-- Recording a node. -/
theorem advances_push {kind : Kind} {args : List (Value F)} {info : List Nat}
    (shape : (⟨kind, args, info, false⟩ : Node F).Computes ∨ source kind info) :
    Advances source (push kind args info) := by
  intro a h
  have new (own : ∀ v ∈ args, a.checkValue v = .ok ()) :
      a.Preserves (a.pushed ⟨kind, args, info, false⟩) ∧
        (a.pushed ⟨kind, args, info, false⟩).Straight source :=
    ⟨preserves_pushed a _, h.pushed shape own⟩
  obtain ⟨r, run, all⟩ := run_checkValues a a args
  let checks : ArenaM F Unit := args.forM fun v => liftM (a.checkValue v)
  change a.Preserves ((checks >>= _).run.run a).2 ∧ ((checks >>= _).run.run a).2.Straight source
  rw [run_bind, run]
  cases r with
  | error e => exact ⟨.refl a, h⟩
  | ok _ =>
      cases kind with
      | op code =>
          cases a.find? (.op code) args info with
          | some i => exact ⟨.refl a, h⟩
          | none => exact new (all rfl)
      | _ => exact new (all rfl)

omit [Scalar F] in
theorem advances_newIndependent {array position : Nat}
    (isSource : source .independent [array, position]) :
    Advances source (newIndependent array position : ArenaM F (Value F)) :=
  fun a h => ⟨preserves_pushed a _, h.pushed (.inr isSource) (by simp)⟩

/-- The arena with a node marked as overwritten. -/
def marked (a : Arena F) (r : NodeRef) : Arena F :=
  { a with nodes := a.nodes.modify r.index fun n => { n with overwritten := true } }

omit [Scalar F] in
theorem node_marked (a : Arena F) (r : NodeRef) (i : Nat) :
    (a.marked r).nodes[i]? = (a.nodes[i]?).map fun n =>
      { n with overwritten := r.index = i || n.overwritten } := by
  rw [marked, Array.getElem?_modify]
  split
  case isTrue eq => simp [eq]
  case isFalse ne => cases h : a.nodes[i]? <;> simp [ne]

omit [Scalar F] in
theorem preserves_marked (a : Arena F) (r : NodeRef) : a.Preserves (a.marked r) where
  id_eq := rfl
  node {i n} hn _ := ⟨_, by rw [node_marked, hn]; rfl⟩
  pattern hp := hp

omit [Scalar F] in
theorem Straight.marked (h : a.Straight source) (r : NodeRef) :
    (a.marked r).Straight source := by
  refine ⟨fun {i n} hn => ?_, fun {i n s} hn hs => ?_⟩ <;>
    (rw [node_marked, Option.map_eq_some_iff] at hn; obtain ⟨m, hm, rfl⟩ := hn)
  · exact (h.node hm).imp_left fun computes => computes.overwrite _
  · exact h.before hm hs

omit [Scalar F] in
theorem advances_markOverwritten (r : NodeRef) :
    Advances source (markOverwritten r : ArenaM F Unit) := by
  refine advances_get.bind fun b => (advances_lift (b.check r)).bind fun _ a h => ?_
  exact ⟨preserves_marked a r, h.marked r⟩

end Arena

/-! ## Arithmetic -/

/-- A property of computations that arithmetic on recorded values has, since
it has no other effects than these. -/
structure Arena.Admits [Scalar F] (P : ∀ α : Type, ArenaM F α → Prop) : Prop where
  pure {α : Type} (x : α) : P α (pure x)
  lift {α : Type} (c : Except Failure α) : P α (liftM c)
  get : P (Arena F) get
  bind {α β : Type} {c : ArenaM F α} {f : α → ArenaM F β} :
    P α c → (∀ x, P β (f x)) → P β (c >>= f)
  push {kind : Kind} {args : List (Value F)} {info : List Nat} :
    (⟨kind, args, info, false⟩ : Node F).Computes → P NodeRef (Arena.push kind args info)
  mark (r : NodeRef) : P Unit (Arena.markOverwritten r)

/-- Straight graphs stay straight. -/
theorem Arena.admits_advances [Scalar F] {source : Kind → List Nat → Prop} :
    Admits (F := F) fun _ c => Advances source c where
  pure := advances_pure
  lift := advances_lift
  get := advances_get
  bind := Advances.bind
  push computes := advances_push (.inl computes)
  mark := advances_markOverwritten

namespace Arena.Admits

variable [Scalar F] {P : ∀ α : Type, ArenaM F α → Prop} (h : Admits P)

include h

theorem recordUnary (op : Unary) (v : Value F) : P _ (Value.recordUnary (.unary op) v) :=
  h.bind h.get fun _ => h.bind (h.lift _) fun _ =>
    h.bind (h.push (by exact ⟨v, rfl⟩)) fun _ => h.pure _

theorem binary (op : Binary) (v w : Value F) : P _ (Value.binary (.binary op) v w) := by
  by_cases constants : ∃ x y, v = .const x ∧ w = .const y
  case pos =>
      obtain ⟨x, y, rfl, rfl⟩ := constants
      exact h.pure _
  case neg =>
      rw [Value.binary]
      case x => exact fun x y hv hw => constants ⟨x, y, hv, hw⟩
      refine h.bind (h.lift _) fun _ => h.bind h.get fun _ => h.bind (h.lift _) fun _ =>
        h.bind h.get fun _ => h.bind (h.lift _) fun _ => ?_
      cases Value.reduce (.binary op) v w with
      | value z => exact h.pure z
      | negation z => exact h.recordUnary .neg z
      | operation => exact h.bind (h.push (by exact ⟨v, w, rfl⟩)) fun _ => h.pure _

theorem unary (op : Unary) (v : Value F) : P _ (Value.unary (.unary op) v) := by
  cases v with
  | const x => exact h.pure _
  | node n => exact h.recordUnary op (.node n)

theorem powi (v : Value F) (n : Int32) : P _ (Value.powi v n) := by
  cases v with
  | const x => exact h.pure _
  | node r =>
      simp only [Value.powi]
      split
      case isTrue => exact h.pure _
      case isFalse =>
          split
          case isTrue => exact h.pure _
          case isFalse =>
              exact h.bind h.get fun _ => h.bind (h.lift _) fun _ =>
                h.bind (h.push (by exact ⟨_, _, rfl, rfl⟩)) fun _ => h.pure _

theorem pushAssign (v : Value F) : P _ (Arena.push .assign [v] []) :=
  h.push (by exact ⟨v, rfl⟩)

theorem toNode (v : Value F) : P _ (Value.toNode v) := by
  cases v with
  | const x => exact h.bind (h.pushAssign _) fun _ => h.pure _
  | node r => exact h.bind h.get fun _ => h.bind (h.lift _) fun _ => h.pure _

theorem replace (op : Compound) (old : NodeRef) (v : Value F) : P _ (Value.replace op old v) :=
  h.bind (h.mark old) fun _ => h.bind (h.push (by exact ⟨_, v, rfl⟩)) fun _ => h.pure _

theorem compound (op : Compound) (slot v : Value F) : P _ (Value.compound op slot v) := by
  cases slot with
  | const x =>
      cases v with
      | const y => exact h.pure _
      | node r =>
          have asNode : P _ (do
              Value.replace op (← Arena.push .assign [.const x] []) (.node r) :
                ArenaM F (Value F)) :=
            h.bind (h.pushAssign _) fun n => h.replace op n _
          refine h.bind h.get fun _ => h.bind (h.lift _) fun _ => ?_
          cases op <;> repeat' split
          all_goals first | exact h.pure _ | exact asNode
  | node r =>
      refine h.bind (h.lift _) fun _ => h.bind h.get fun _ => h.bind (h.lift _) fun _ =>
        h.bind h.get fun _ => h.bind (h.lift _) fun _ => ?_
      cases op <;> repeat' split
      all_goals first
        | exact h.pure _
        | exact h.replace _ r v
        | exact h.bind (h.mark r) fun _ => h.pure _

end Arena.Admits

end LoopDiff
