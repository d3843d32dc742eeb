import LoopDiff.Proofs.Graph.Denotation

/-!
# LoopDiff.Proofs.Graph.Meaning

What a finished graph means.

The meaning of a graph is given without a memory: the writes of a loop
result at an iteration (`Problem.writes?`), what a loop accumulates over all
of its iterations (`accumulator?`), and the number of a node outside of
loops (`fixed?`).

A memory is sound if it holds nothing else (`Problem.Sound`).  What is
remembered of a node is its number at the current iteration, or outside of
loops (`current?`).
-/

namespace LoopDiff

open Std

variable {F : Type}

/-- A write of a loop body: what is stored or added at a location. -/
structure Write (F : Type) where
  location : Nat
  add : Bool
  value : F

variable [Scalar F]

/-- The effect of a write. -/
def Write.apply (acc : Accumulator F) (w : Write F) : Accumulator F :=
  acc.insert w.location
    (if w.add then Scalar.binary .add (acc.getD w.location Scalar.zero) w.value else w.value)

namespace Problem

variable (p : Problem F)

/-- The write of a node at an iteration. -/
def write? (it : Nat) (n : Node F) : Option (Write F) := do
  let (x, _) ← p.value? (some it) (← n.args[0]?)
  let location ← (p.arena.pattern? (← n.info[0]?)).bind fun q => q.eval it
  let flag ← n.info[1]?
  some ⟨location, flag = 1, x⟩

/-- The write behind a conditional result. -/
def guardedWrite? (it : Nat) (result : NodeRef) : Option (Write F) := do
  let n ← (p.arena.node (← (p.guarded result).toOption)).toOption
  if n.kind = .indexedWrite then p.write? it n else none

/-- The writes of a loop result at an iteration. -/
def writes? (it : Nat) (r : NodeRef) : Option (List (Write F)) := do
  let n ← (p.arena.node r).toOption
  match n.kind with
  | .indexedWrite => (p.write? it n).map fun w => [w]
  | .endIf => do
    let results ← (p.taken it (← (p.collectChain r).toOption)).toOption
    results.mapM (p.guardedWrite? it)
  | _ => none

/-- The number of iterations of the loop that starts at a node. -/
def iterations? (start : NodeRef) : Option Nat :=
  (p.arena.node start).toOption.bind fun n => n.info[1]?

/-- What the loop ending at a node accumulates. -/
def accumulator? (loop : NodeRef) : Option (Accumulator F) := do
  let n ← (p.arena.node loop).toOption
  let start ← (← n.args[0]?).node?
  let ws ← (List.range (← p.iterations? start)).mapM fun it =>
    (n.args.tail.filterMap Value.node?).mapM (p.writes? it)
  some (ws.flatten.flatten.foldl Write.apply ∅)

/-- What an argument contributes to an accumulation at position `i`.  Other
than a loop, an argument comes before the accumulation. -/
def summand? (i location : Nat) : Value F → Option F
  | .const x => some x
  | .node r => do
    if (← (p.arena.node r).toOption).kind = .loopEnd then
      (p.accumulator? r).map fun acc => acc.getD location Scalar.zero
    else if r.index < i then (p.value? none (.node r)).map Prod.fst
    else none

/-- The sum of an accumulation. -/
def sum? (i : Nat) (n : Node F) : Option F := do
  let xs ← n.args.mapM (p.summand? i (← n.info[0]?))
  some (xs.foldl (fun sum x => Scalar.binary .add sum x) Scalar.zero)

/-- The number of a node outside of loops, other than a synonym. -/
def proper? (i : Nat) : Option F := do
  let n ← p.arena.nodes[i]?
  if n.kind = .accumulate then p.sum? i n else (p.known? none i).map Prod.fst

/-- The number of a node outside of loops. -/
def fixed? (i : Nat) : Option F := do
  let n ← p.arena.nodes[i]?
  match n.kind, n.args with
  | .synonym, [.node s] =>
    if s.arena = p.arena.id ∧ s.index < i then p.proper? s.index else none
  | _, _ => p.proper? i

/-- The number of an output. -/
def output? : Value F → Option F
  | .const x => some x
  | .node r => if r.arena = p.arena.id then p.fixed? r.index else none

/-- The number of a node at the current iteration, or outside of loops. -/
def current? (it : Option Nat) (i : Nat) : Option (F × Bool) :=
  (p.known? it i).or ((p.fixed? i).map fun x => (x, false))

/-- A memory that holds nothing but what the graph means. -/
structure Sound (m : Memory F) : Prop where
  invariant {i : Nat} {x : F} : m.invariant[i]? = some x → ∀ it, p.current? it i = some (x, false)
  varying {i : Nat} {x : F} : m.varying[i]? = some x →
    m.iteration.isSome ∧ p.known? m.iteration i = some (x, true)
  loops {i : Nat} {acc : Accumulator F} : m.loops[i]? = some acc →
    p.accumulator? (p.arena.handle i) = some acc
  chains {i : Nat} {chain : Chain} : m.chains[i]? = some chain →
    p.collectChain (p.arena.handle i) = .ok chain

/-- Marks that hold nothing but numbers of nodes. -/
def SoundMarks (it : Option Nat) (marks : Marks F) : Prop :=
  ∀ (i : Nat) (x : F) (varies : Bool), marks[i]? = some (.done x varies) →
    p.current? it i = some (x, varies)

variable {p}

theorem current?_of_known? {it : Option Nat} {i : Nat} {y : F × Bool}
    (h : p.known? it i = some y) : p.current? it i = some y := by
  rw [current?, h, Option.some_or]

omit [Scalar F] in
theorem handle_eq {r : NodeRef} (h : r.arena = p.arena.id) : p.arena.handle r.index = r := by
  cases r
  cases h
  rfl

/-- What is remembered of a node is its number. -/
theorem Sound.value? {m : Memory F} (sound : p.Sound m) {i : Nat} {y : F × Bool}
    (h : m.value? i = some y) : p.current? m.iteration i = some y := by
  rw [Memory.value?] at h
  split at h
  case h_1 x hx =>
      cases h
      exact sound.invariant hx _
  case h_2 =>
      obtain ⟨x, hx, rfl⟩ := Option.map_eq_some_iff.mp h
      exact current?_of_known? (sound.varying hx).2

/-- A number outside of loops is the number at every iteration. -/
theorem current?_of_fixed? {i : Nat} {x : F} (h : p.fixed? i = some x) (it : Option Nat) :
    p.current? it i = some (x, false) := by
  obtain ⟨n, hn, hx⟩ := Option.bind_eq_some_iff.mp h
  -- above the lowest tier only `fixed?` gives a number
  have above (tier : n.kind.tier ≠ 0) : p.current? it i = some (x, false) := by
    have unknown : p.known? it i = none := by
      by_contra known
      obtain ⟨y, hy⟩ := Option.ne_none_iff_exists'.mp known
      obtain ⟨m, hm, low⟩ := tier_of_known? hy
      rw [hn] at hm
      cases hm
      exact tier low
    rw [current?, unknown, h]
    rfl
  have proper (hx : p.proper? i = some x) : p.current? it i = some (x, false) := by
    rw [proper?, hn, Option.bind_eq_bind, Option.bind_some] at hx
    split at hx
    case isTrue kind => exact above (by simp [kind, Kind.tier])
    case isFalse =>
        obtain ⟨⟨x, varies⟩, hy, rfl⟩ := Option.map_eq_some_iff.mp hx
        obtain rfl := varies_of_outside hy
        exact current?_of_known? (known?_of_invariant hy it)
  split at hx
  case h_1 kind _ => exact above (by simp [kind, Kind.tier])
  case h_2 => exact proper hx

/-- A value with a number is an output with that number. -/
theorem output?_of_value? {v : Value F} {x : F} {varies : Bool}
    (h : p.value? none v = some (x, varies)) : p.output? v = some x := by
  cases v with
  | const y =>
      cases h
      rfl
  | node r =>
      rw [value?] at h
      split at h
      case isFalse => cases h
      case isTrue arena =>
          obtain ⟨n, hn, low⟩ := tier_of_known? h
          have number : p.proper? r.index = some x := by
            rw [proper?, hn, Option.bind_eq_bind, Option.bind_some,
              if_neg fun kind => by simp [kind, Kind.tier] at low, h, Option.map_some]
          rw [output?, if_pos arena, fixed?, hn, Option.bind_eq_bind, Option.bind_some]
          split
          case h_1 kind _ => simp [kind, Kind.tier] at low
          case h_2 => exact number

/-- The number of a node at the current iteration is all there is to
remember of it. -/
theorem Sound.keep {m : Memory F} (sound : p.Sound m) {i : Nat} {x : F} {varies : Bool}
    (h : p.current? m.iteration i = some (x, varies)) : p.Sound (m.keep i x varies) := by
  cases varies with
  | true =>
      have known : p.known? m.iteration i = some (x, true) := by
        rcases Option.or_eq_some_iff.mp h with known | ⟨-, fixed⟩
        · exact known
        · obtain ⟨z, -, eq⟩ := Option.map_eq_some_iff.mp fixed
          cases eq
      refine ⟨sound.invariant, fun {j y} hy => ?_, sound.loops, sound.chains⟩
      simp only [Memory.keep, if_true] at hy ⊢
      rw [TreeMap.getElem?_insert] at hy
      split at hy
      case isTrue eq =>
          cases Std.compare_eq_iff_eq.mp eq
          cases hy
          refine ⟨?_, known⟩
          cases out : m.iteration with
          | some it => rfl
          | none =>
              rw [out] at known
              cases varies_of_outside known
      case isFalse => exact sound.varying hy
  | false =>
      have always (it : Option Nat) : p.current? it i = some (x, false) := by
        rcases Option.or_eq_some_iff.mp h with known | ⟨-, fixed⟩
        · exact current?_of_known? (known?_of_invariant known it)
        · obtain ⟨z, hz, eq⟩ := Option.map_eq_some_iff.mp fixed
          cases eq
          exact current?_of_fixed? hz it
      refine ⟨fun {j y} hy it => ?_, sound.varying, sound.loops, sound.chains⟩
      simp only [Memory.keep, Bool.false_eq_true, if_false] at hy
      rw [TreeMap.getElem?_insert] at hy
      split at hy
      case isTrue eq =>
          cases Std.compare_eq_iff_eq.mp eq
          cases hy
          exact always it
      case isFalse => exact sound.invariant hy it

end Problem

end LoopDiff
