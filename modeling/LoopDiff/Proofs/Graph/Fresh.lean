import LoopDiff.Proofs.Graph.Termination
import LoopDiff.Proofs.Graph.Writes

/-!
# LoopDiff.Proofs.Graph.Fresh

The rules of evaluation, without a memory.

`Arena.evaluateFresh` computes a node from its arguments every time it is read, at
the iteration at which it is read, and runs a loop every time one of its
locations is read.

A node varies if it reads the iteration or is computed from a node that varies
(`Arena.Varies`).  One that does not vary has the same value at all iterations
(`Problem.freshValue_eq`).
-/

namespace LoopDiff

variable {F : Type}

/-! ## Dependence on the iteration -/

/-- The arguments whose values a node reads when it is computed. -/
def Node.consulted (n : Node F) : List (Value F) :=
  match n.kind with
  | .assign | .synonym => n.args.take 1
  | .op _ | .compound _ => n.args.take 2
  | .accumulate => n.args
  | _ => []

theorem Node.mem_args_of_consulted {n : Node F} {v : Value F} (h : v ∈ n.consulted) :
    v ∈ n.args := by
  cases kind : n.kind with
  | assign | synonym | op _ | compound _ =>
      simp only [consulted, kind] at h
      exact List.mem_of_mem_take h
  | accumulate =>
      simp only [consulted, kind] at h
      exact h
  | _ => simp [consulted, kind] at h

namespace Arena

/-- The value of the node at a position depends on the iteration. -/
inductive Varies (a : Arena F) : Nat → Prop where
  | reads {i : Nat} {n : Node F} (node : a.nodes[i]? = some n)
      (reads : n.readsIteration = true) : Varies a i
  | consults {i : Nat} {n : Node F} {r : NodeRef} (node : a.nodes[i]? = some n)
      (mem : .node r ∈ n.consulted) (varies : Varies a r.index) : Varies a i

/-- No accumulation depends on the iteration. -/
def Steady (a : Arena F) : Prop :=
  ∀ (i : Nat) (n : Node F), a.nodes[i]? = some n → n.kind = .accumulate → ¬a.Varies i

variable {a : Arena F}

theorem not_varies_iff {i : Nat} {n : Node F} (hn : a.nodes[i]? = some n) :
    ¬a.Varies i ↔ n.readsIteration = false ∧ ∀ r, .node r ∈ n.consulted → ¬a.Varies r.index := by
  constructor
  · intro h
    exact ⟨Bool.eq_false_iff.mpr fun reads => h (.reads hn reads),
      fun r mem varies => h (.consults hn mem varies)⟩
  · rintro ⟨reads, consulted⟩ varies
    cases varies with
    | reads hn' reads' =>
        cases hn.symm.trans hn'
        exact Bool.false_ne_true (reads.symm.trans reads')
    | consults hn' mem varies =>
        cases hn.symm.trans hn'
        exact consulted _ mem varies

end Arena

/-! ## Rules -/

namespace Problem

variable (p : Problem F)

/-- The iteration that the node `r` requires. -/
def currentFor (r : NodeRef) : Option Nat → Except Failure Nat
  | some i => .ok i
  | none => refuse (.invalidGraph (.outsideLoop r.index))

/-- The value of an argument. -/
def argument (value : NodeRef → Except Failure F) : Value F → Except Failure F
  | .const x => .ok x
  | .node r => value r

/-- The value of the argument of a node at a position. -/
def argumentAt (value : NodeRef → Except Failure F) (n : Node F) (k : Nat) : Except Failure F := do
  argument value (← present n.args[k]?)

variable [Scalar F]

/-- What an argument of an accumulation adds to it: what a loop has written to
the location, or the value of the argument. -/
def summand (value : NodeRef → Except Failure F) (loop : NodeRef → Except Failure (Accumulator F))
    (location : Nat) : Value F → Except Failure F
  | .const x => .ok x
  | .node r => do
    if (← p.arena.node r).kind = .loopEnd then
      return (← loop r).getD location Scalar.zero
    else
      value r

/-- The value of a node, from the values of its arguments and what loops
write. -/
def compute (value : NodeRef → Except Failure F) (loop : NodeRef → Except Failure (Accumulator F))
    (it : Option Nat) (r : NodeRef) (n : Node F) : Except Failure F :=
  match n.kind with
  | .independent => do p.input (← present n.info[0]?) (← present n.info[1]?)
  | .assign | .synonym => argumentAt value n 0
  | .op code => do
    let x ← argumentAt value n 0
    let y ← match n.args[1]? with
      | some v => argument value v
      | none => pure Scalar.zero
    let exponent ← match code with
      | .powi => do pure (Exponent.decode (← present n.info[0]?))
      | _ => pure 0
    return code.eval x y exponent
  | .compound op => do
    let x ← argumentAt value n 0
    let y ← argumentAt value n 1
    return (OpCode.binary op.toBinary).eval x y 0
  | .iteration => do return Scalar.ofInt (← currentFor r it)
  | .indexedRead => do
    let i ← currentFor r it
    let position ← p.patternAt (← present n.info[1]?) i
    p.input (← present n.info[0]?) position
  | .accumulate => do
    let location ← present n.info[0]?
    n.args.foldlM (fun sum v => do
      return Scalar.binary .add sum (← p.summand value loop location v)) Scalar.zero
  | kind => refuse (.invalidGraph (.noValue kind r.index))

/-- What a result of a loop body does to the locations at an iteration. -/
def perform (value : NodeRef → Except Failure F) (i : Nat) :
    (depth : Nat) → NodeRef → Accumulator F → Except Failure (Accumulator F)
  | 0, r, _ => throw (endless r)
  | depth + 1, r, acc => do
    let n ← p.arena.node r
    match n.kind with
    | .indexedWrite => do
      let x ← argumentAt value n 0
      let location ← p.patternAt (← present n.info[0]?) i
      if (← present n.info[1]?) = 1 then
        return acc.insert location (Scalar.binary .add (acc.getD location Scalar.zero) x)
      else
        return acc.insert location x
    | .endIf => do
      (← p.taken i (← p.collectChain r)).foldlM (fun acc result => do
        perform value i depth (← p.guarded result) acc) acc
    | kind => refuse (.invalidGraph (.notLoopResult kind r.index))

mutual

/-- The value of a node at an iteration, or outside of loops. -/
def freshValue : (depth : Nat) → (it : Option Nat) → NodeRef → Except Failure F
  | 0, _, r => throw (endless r)
  | depth + 1, it, r => do
    p.compute (freshValue depth it) (freshLoop depth) it r (← p.arena.node r)

/-- What the loop ending at `loop` writes. -/
def freshLoop : (depth : Nat) → (loop : NodeRef) → Except Failure (Accumulator F)
  | 0, loop => throw (endless loop)
  | depth + 1, loop => do
    let n ← p.arena.node loop
    let start ← match ← present n.args[0]? with
      | .node r => pure r
      | .const _ => refuse (.invalidGraph .loopWithoutStart)
    let iterations ← present (← p.arena.node start).info[1]?
    (List.range iterations).foldlM (fun acc i =>
      (n.args.tail.filterMap Value.node?).foldlM (fun acc r =>
        p.perform (freshValue depth (some i)) i p.depth r acc) acc) ∅

end

end Problem

/-- The values of `outputs` for the given input arrays, with nothing
remembered. -/
def Arena.evaluateFresh [Scalar F] (a : Arena F) (outputs : List (Value F))
    (inputs : List (List F)) : Except Failure (List F) :=
  let p : Problem F := ⟨a, inputs.map List.toArray⟩
  outputs.mapM (Problem.argument (p.freshValue p.depth none))

theorem foldlM_congr {α β : Type} {f g : β → α → Except Failure β} {xs : List α}
    (same : ∀ x ∈ xs, ∀ y, f y x = g y x) (y : β) : xs.foldlM f y = xs.foldlM g y := by
  induction xs generalizing y with
  | nil => rfl
  | cons x xs ih =>
      rw [List.foldlM_cons, List.foldlM_cons, same x (List.mem_cons_self ..)]
      exact bind_congr fun y' => ih (fun x' mem => same x' (List.mem_cons_of_mem _ mem)) y'

theorem mem_take_one {α : Type} {xs : List α} {x : α} : x ∈ xs.take 1 ↔ xs[0]? = some x := by
  cases xs <;> simp [eq_comm]

theorem mem_take_two {α : Type} {xs : List α} {x : α} :
    x ∈ xs.take 2 ↔ xs[0]? = some x ∨ xs[1]? = some x := by
  rcases xs with _ | ⟨y, _ | ⟨z, zs⟩⟩ <;> simp [eq_comm]

namespace Problem

variable [Scalar F] {p : Problem F} {it it' : Option Nat} {r : NodeRef} {n : Node F}

/-! ## Other iterations -/

omit [Scalar F] in
theorem argument_congr {value value' : NodeRef → Except Failure F} {v : Value F}
    (same : ∀ s, v = .node s → value s = value' s) : argument value v = argument value' v := by
  cases v with
  | const x => rfl
  | node s => exact same s rfl

omit [Scalar F] in
theorem argumentAt_congr {value value' : NodeRef → Except Failure F} {k : Nat}
    (same : ∀ s, n.args[k]? = some (.node s) → value s = value' s) :
    argumentAt value n k = argumentAt value' n k := by
  rw [argumentAt, argumentAt]
  cases hv : n.args[k]? with
  | none => rfl
  | some v => exact argument_congr fun s eq => same s (eq ▸ hv)

/-- A node that does not read the iteration computes the same from the same values of
the arguments that it consults. -/
theorem compute_congr {value value' : NodeRef → Except Failure F}
    {loop : NodeRef → Except Failure (Accumulator F)} (reads : n.readsIteration = false)
    (same : ∀ s, .node s ∈ n.consulted → value s = value' s) :
    p.compute value loop it r n = p.compute value' loop it' r n := by
  cases kind : n.kind with
  | assign | synonym =>
      simp only [Node.consulted, kind, mem_take_one] at same
      simp only [compute, kind]
      exact argumentAt_congr same
  | op code =>
      simp only [Node.consulted, kind, mem_take_two] at same
      simp only [compute, kind]
      have first : argumentAt value n 0 = argumentAt value' n 0 :=
        argumentAt_congr fun s hs => same s (.inl hs)
      rw [first]
      cases hw : n.args[1]? with
      | none => rfl
      | some w =>
          have second : argument value w = argument value' w :=
            argument_congr fun s eq => same s (.inr (eq ▸ hw))
          simp only [second]
  | compound op =>
      simp only [Node.consulted, kind, mem_take_two] at same
      simp only [compute, kind]
      rw [argumentAt_congr fun s hs => same s (.inl hs),
        argumentAt_congr fun s hs => same s (.inr hs)]
  | accumulate =>
      simp only [Node.consulted, kind] at same
      simp only [compute, kind]
      refine bind_congr fun location => foldlM_congr (fun v mem sum => ?_) _
      cases v with
      | const x => rfl
      | node s => simp only [summand, same s mem]
  | iteration | indexedRead => simp [Node.readsIteration, kind] at reads
  | _ => simp only [compute, kind]

/-- A value that does not depend on the iteration is the same at all of them. -/
theorem freshValue_eq (owned : p.arena.Owned) {i : Nat} (h : ¬p.arena.Varies i) (d : Nat)
    (it it' : Option Nat) :
    p.freshValue d it (p.arena.handle i) = p.freshValue d it' (p.arena.handle i) := by
  induction d generalizing i with
  | zero => rfl
  | succ d ih =>
      rw [freshValue, freshValue]
      cases found : p.arena.node (p.arena.handle i) with
      | error e => rfl
      | ok n =>
          have hn := (Arena.node_eq_ok_iff.mp found).2
          obtain ⟨reads, steady⟩ := (Arena.not_varies_iff hn).mp h
          refine compute_congr reads fun s mem => ?_
          have own := owned _ n hn s (Node.mem_args_of_consulted mem)
          rw [← handle_eq (Arena.owns_iff.mp own).1]
          exact ih (steady s mem)

end Problem

end LoopDiff
