import LoopDiff.Proofs.Graph.Extension
import LoopDiff.Graph.Evaluation

/-!
# LoopDiff.Proofs.Graph.Denotation

The numbers that the value nodes of a graph stand for.

`Problem.known?` is the number of a value node at an iteration, or outside
of loops, together with a flag that says whether it depends on the
iteration.  It is computed from the arguments of the node every time, with
no memory and no marks; a node whose number is not determined in this way,
such as an accumulation, has none.

The number of a node is the same in every later arena (`known?_preserved`), and
a number that does not depend on the iteration is the same at all of them
(`known?_of_invariant`).
-/

namespace LoopDiff

variable {F : Type}

theorem mapM_eq_some_iff {α β : Type} {f : α → Option β} {xs : List α} {ys : List β} :
    xs.mapM f = some ys ↔ List.Forall₂ (fun x y => f x = some y) xs ys := by
  induction xs generalizing ys with
  | nil =>
      rw [List.mapM_nil, List.forall₂_nil_left_iff]
      exact ⟨fun h => (Option.some.inj h).symm, fun h => h ▸ rfl⟩
  | cons x xs ih =>
      rw [List.mapM_cons]
      constructor
      · intro h
        obtain ⟨y, hy, h⟩ := Option.bind_eq_some_iff.mp h
        obtain ⟨ys', hys, h⟩ := Option.bind_eq_some_iff.mp h
        cases h
        exact .cons hy (ih.mp hys)
      · intro h
        cases h with
        | cons hy hys => simp [hy, ih.mpr hys]

/-! ## Nodes -/

namespace Problem

/-- The number at a position of an input array, if there is one. -/
def input? (p : Problem F) (array position : Nat) : Option F :=
  (p.inputs[array]?).bind fun values => values[position]?

end Problem

namespace Node

/-- The arguments that contribute a number. -/
def valueArgs (n : Node F) : List (Value F) :=
  match n.kind with
  | .assign | .op _ | .compound _ => n.args
  | _ => []

/-- Whether the number of the node depends on the iteration by itself. -/
def readsIteration (n : Node F) : Bool :=
  match n.kind with
  | .iteration | .indexedRead => true
  | _ => false

variable [Scalar F]

/-- The number of an elementary operation. -/
def operate? (code : OpCode) (xs : List F) (info : List Nat) : Option F :=
  match code, xs, info with
  | .unary op, [x], _ => some (Scalar.unary op x)
  | .powi, [x], [word] => some (Scalar.powi x (Exponent.decode word))
  | .binary op, [x, y], _ => some (Scalar.binary op x y)
  | _, _, _ => none

/-- The number of a node, from the numbers of its arguments. -/
def result? (p : Problem F) (it : Option Nat) (n : Node F) (xs : List F) : Option F :=
  match n.kind with
  | .independent => do p.input? (← n.info[0]?) (← n.info[1]?)
  | .assign => match xs with
    | [x] => some x
    | _ => none
  | .op code => operate? code xs n.info
  | .compound op => operate? (.binary op.toBinary) xs n.info
  | .iteration => it.map fun (i : Nat) => Scalar.ofInt (i : Int)
  | .indexedRead => do
    let i ← it
    let position ← (p.arena.pattern? (← n.info[1]?)).bind fun q => q.eval i
    p.input? (← n.info[0]?) position
  | _ => none

theorem tier_of_result? {p : Problem F} {it : Option Nat} {n : Node F} {xs : List F} {x : F}
    (h : n.result? p it xs = some x) : n.kind.tier = 0 := by
  cases kind : n.kind <;> first | rfl | (simp only [result?, kind] at h; contradiction)

theorem result?_of_invariant {p : Problem F} {n : Node F} (h : n.readsIteration = false)
    (it it' : Option Nat) (xs : List F) : n.result? p it xs = n.result? p it' xs := by
  cases kind : n.kind with
  | iteration | indexedRead => simp [readsIteration, kind] at h
  | _ => simp only [result?, kind]

theorem not_readsIteration_of_outside {p : Problem F} {n : Node F} {xs : List F} {x : F}
    (h : n.result? p none xs = some x) : n.readsIteration = false := by
  cases kind : n.kind with
  | iteration | indexedRead => simp [result?, kind] at h
  | _ => simp only [readsIteration, kind]

end Node

namespace Problem

variable [Scalar F] (p : Problem F) (it : Option Nat)

/-- The number of the node at a position, and whether it depends on the
iteration. -/
def known? (i : Nat) : Option (F × Bool) :=
  match p.arena.nodes[i]? with
  | none => none
  | some n => do
    let xs ← n.valueArgs.mapM fun
      | .const x => some (x, false)
      | .node r => if _h : r.arena = p.arena.id ∧ r.index < i then known? r.index else none
    let x ← n.result? p it (xs.map Prod.fst)
    some (x, n.readsIteration || xs.any Prod.snd)
termination_by i
decreasing_by exact _h.2

/-- The number of a value. -/
def value? : Value F → Option (F × Bool)
  | .const x => some (x, false)
  | .node r => if r.arena = p.arena.id then p.known? it r.index else none

variable {p it}

/-- What it takes for the node at a position to have a number. -/
theorem known?_eq_some_iff {i : Nat} {x : F} {varies : Bool} :
    p.known? it i = some (x, varies) ↔ ∃ n ys, p.arena.nodes[i]? = some n ∧
      (∀ r, .node r ∈ n.valueArgs → r.index < i) ∧
      List.Forall₂ (fun v y => p.value? it v = some y) n.valueArgs ys ∧
      n.result? p it (ys.map Prod.fst) = some x ∧
      varies = (n.readsIteration || ys.any Prod.snd) := by
  rw [known?]
  cases hn : p.arena.nodes[i]? with
  | none => simp
  | some n =>
      have arg (v : Value F) (y : F × Bool) : (match v with
            | .const x => some (x, false)
            | .node r => if _h : r.arena = p.arena.id ∧ r.index < i then p.known? it r.index
              else none) = some y ↔
          (∀ r, v = .node r → r.index < i) ∧ p.value? it v = some y := by
        cases v with
        | const x => simp [value?]
        | node r =>
            simp only [value?, Value.node.injEq, forall_eq']
            by_cases lt : r.index < i <;> by_cases arena : r.arena = p.arena.id <;>
              simp [lt, arena]
      constructor
      · intro h
        obtain ⟨ys, hys, h⟩ := Option.bind_eq_some_iff.mp h
        obtain ⟨z, hz, h⟩ := Option.bind_eq_some_iff.mp h
        cases h
        rw [mapM_eq_some_iff] at hys
        refine ⟨n, ys, rfl, fun r hr => ?_, hys.imp fun v y h => ((arg v y).mp h).2, hz, rfl⟩
        obtain ⟨k, lt, hk⟩ := List.mem_iff_getElem.mp hr
        obtain ⟨y, -, hy⟩ := exists_right_of_forall₂ hys (List.getElem?_eq_getElem lt)
        exact ((arg _ y).mp hy).1 r hk
      · rintro ⟨n', ys, hn', lt, hys, hz, rfl⟩
        cases hn'
        refine Option.bind_eq_some_iff.mpr ⟨ys, mapM_eq_some_iff.mpr ?_,
          Option.bind_eq_some_iff.mpr ⟨x, hz, rfl⟩⟩
        refine List.forall₂_iff_get.mpr ⟨hys.length_eq, fun k hk hk' => ?_⟩
        exact (arg _ _).mpr ⟨fun r hr => lt r (hr ▸ List.getElem_mem hk),
          (List.forall₂_iff_get.mp hys).2 k hk hk'⟩

/-- A value with a number is a number or a node of the lowest tier. -/
theorem tier_of_known? {i : Nat} {y : F × Bool} (h : p.known? it i = some y) :
    ∃ n, p.arena.nodes[i]? = some n ∧ n.kind.tier = 0 := by
  obtain ⟨n, ys, hn, -, -, hx, -⟩ := known?_eq_some_iff.mp h
  exact ⟨n, hn, Node.tier_of_result? hx⟩

/-! ## Later arenas -/

/-- The number of a node is the same in every arena that preserves it. -/
theorem result?_preserved {a a' : Arena F} (kept : a.Preserves a') {inputs : List (Array F)}
    {n : Node F} {xs : List F} {x : F} (h : n.result? ⟨a, inputs⟩ it xs = some x) :
    n.result? ⟨a', inputs⟩ it xs = some x := by
  cases kind : n.kind with
  | indexedRead =>
      simp only [Node.result?, kind, Option.bind_eq_bind, Option.bind_eq_some_iff] at h ⊢
      obtain ⟨i, hi, pattern, hpattern, position, ⟨q, hq, eval⟩, h⟩ := h
      obtain ⟨q', hq', rfl⟩ := Option.map_eq_some_iff.mp hq
      refine ⟨i, hi, pattern, hpattern, position, ⟨q'.1, ?_, eval⟩, h⟩
      rw [Arena.pattern?, kept.pattern hq']
      rfl
  | _ =>
      simp only [Node.result?, kind] at h ⊢
      exact h

theorem known?_preserved {a a' : Arena F} (kept : a.Preserves a') {inputs : List (Array F)}
    {i : Nat} {y : F × Bool} (h : known? ⟨a, inputs⟩ it i = some y) :
    known? ⟨a', inputs⟩ it i = some y := by
  induction i using Nat.strong_induction_on generalizing y with
  | _ i ih =>
    obtain ⟨x, varies⟩ := y
    obtain ⟨n, ys, hn, lt, hys, hx, rfl⟩ := known?_eq_some_iff.mp h
    obtain ⟨flag, hn'⟩ := kept.node hn (Node.tier_of_result? hx)
    refine known?_eq_some_iff.mpr ⟨{ n with overwritten := flag }, ys, hn', lt, ?_,
      result?_preserved kept hx, rfl⟩
    refine List.forall₂_iff_get.mpr ⟨hys.length_eq, fun k hk hk' => ?_⟩
    have hv := (List.forall₂_iff_get.mp hys).2 k hk hk'
    change value? _ it (n.valueArgs.get ⟨k, hk⟩) = _
    cases eq : n.valueArgs.get ⟨k, hk⟩ with
    | const x => rwa [eq] at hv
    | node r =>
        rw [eq] at hv
        simp only [value?, kept.id_eq] at hv ⊢
        split at hv
        case isTrue arena =>
            rw [if_pos arena]
            exact ih r.index (lt r (eq ▸ List.getElem_mem hk)) hv
        case isFalse => cases hv

theorem value?_preserved {a a' : Arena F} (kept : a.Preserves a') {inputs : List (Array F)}
    {v : Value F} {y : F × Bool} (h : value? ⟨a, inputs⟩ it v = some y) :
    value? ⟨a', inputs⟩ it v = some y := by
  cases v with
  | const x => exact h
  | node r =>
      simp only [value?, kept.id_eq] at h ⊢
      split at h
      case isTrue arena =>
          rw [if_pos arena]
          exact known?_preserved kept h
      case isFalse => cases h

/-! ## Other iterations -/

/-- A number that does not depend on the iteration is the same at every
iteration and outside of loops. -/
theorem known?_of_invariant {i : Nat} {x : F} (h : p.known? it i = some (x, false))
    (it' : Option Nat) : p.known? it' i = some (x, false) := by
  induction i using Nat.strong_induction_on generalizing x with
  | _ i ih =>
    obtain ⟨n, ys, hn, lt, hys, hx, flag⟩ := known?_eq_some_iff.mp h
    obtain ⟨reads, invariant⟩ := (Bool.or_eq_false_iff).mp flag.symm
    refine known?_eq_some_iff.mpr ⟨n, ys, hn, lt, ?_, ?_, flag⟩
    · refine List.forall₂_iff_get.mpr ⟨hys.length_eq, fun k hk hk' => ?_⟩
      have hv := (List.forall₂_iff_get.mp hys).2 k hk hk'
      have still : (ys.get ⟨k, hk'⟩).2 = false := by
        have := List.any_eq_false.mp invariant _ (List.getElem_mem hk')
        simpa using this
      cases eq : n.valueArgs.get ⟨k, hk⟩ with
      | const x => rwa [eq] at hv
      | node r =>
          rw [eq] at hv
          simp only [value?] at hv ⊢
          split at hv
          case isTrue arena =>
              rw [if_pos arena]
              have pair : ys.get ⟨k, hk'⟩ = ((ys.get ⟨k, hk'⟩).1, false) := Prod.ext rfl still
              rw [pair] at hv ⊢
              exact ih r.index (lt r (eq ▸ List.getElem_mem hk)) hv
          case isFalse => cases hv
    · rwa [Node.result?_of_invariant reads it' it]

/-- Outside of loops nothing depends on the iteration. -/
theorem varies_of_outside {i : Nat} {x : F} {varies : Bool}
    (h : p.known? none i = some (x, varies)) : varies = false := by
  induction i using Nat.strong_induction_on generalizing x varies with
  | _ i ih =>
    obtain ⟨n, ys, hn, lt, hys, hx, rfl⟩ := known?_eq_some_iff.mp h
    have reads := Node.not_readsIteration_of_outside hx
    rw [reads, Bool.false_or, List.any_eq_false]
    intro y hy
    obtain ⟨k, hk, rfl⟩ := List.mem_iff_getElem.mp hy
    have len := hys.length_eq
    have hv := (List.forall₂_iff_get.mp hys).2 k (by omega) hk
    cases eq : n.valueArgs.get ⟨k, by omega⟩ with
    | const x =>
        rw [eq] at hv
        have : (x, false) = ys[k] := Option.some.inj hv
        rw [← this]
        exact Bool.false_ne_true
    | node r =>
        rw [eq] at hv
        simp only [value?] at hv
        split at hv
        case isTrue =>
            have : ys[k].2 = false := ih r.index (lt r (eq ▸ List.getElem_mem _)) hv
            rw [this]
            exact Bool.false_ne_true
        case isFalse => cases hv

end Problem

end LoopDiff
