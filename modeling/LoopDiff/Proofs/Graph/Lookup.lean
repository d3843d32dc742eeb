import LoopDiff.Proofs.Graph.Paths
import LoopDiff.Proofs.Graph.Replay

/-!
# LoopDiff.Proofs.Graph.Lookup

Values that are looked up by position.

An evaluation remembers values by the positions of nodes, and a value that is
remembered is given without a look at the arena of the handle.  So a handle
of another arena stands for the node at its position if the value of that
node is remembered, and is refused if it is not (`Problem.run_value_foreign`).
If an evaluation succeeds it gives the values of the nodes at the positions
of its outputs (`Arena.evaluate_rehomed`).

Only values of nodes of the arena are remembered: an evaluation changes its
memory in few ways (`Problem.Remembers`), and each keeps them among these.
So a handle past the end of the arena is refused next to any other output
(`Arena.evaluate_past_end`).
-/

namespace LoopDiff

variable {F α β : Type}

namespace Eval

theorem run_get_bind (f : Memory F → Eval F β) (m : Memory F) :
    (get >>= f).run m = (f m).run m :=
  rfl

theorem run_bind_ok {c : Eval F α} {m m' : Memory F} {x : α} (h : c.run m = .ok (x, m'))
    (f : α → Eval F β) : (c >>= f).run m = (f x).run m' := by
  rw [StateT.run_bind, h]
  rfl

/-- What one computation gives, if it gives something, another one gives too,
and so do lists of them. -/
theorem run_mapM_map {γ : Type} {f : α → Eval F β} {g : γ → Eval F β} {k : α → γ}
    (h : ∀ x m m' y, (f x).run m = .ok (y, m') → (g (k x)).run m = .ok (y, m'))
    {xs : List α} {m m' : Memory F} {ys : List β} (run : (xs.mapM f).run m = .ok (ys, m')) :
    ((xs.map k).mapM g).run m = .ok (ys, m') := by
  induction xs generalizing m m' ys with
  | nil => exact run
  | cons x xs ih =>
      rw [List.mapM_cons] at run
      obtain ⟨y, m₁, first, run⟩ := bind_eq_ok run
      obtain ⟨zs, m₂, rest, run⟩ := bind_eq_ok run
      rw [List.map_cons, List.mapM_cons, run_bind_ok (h x m m₁ y first), run_bind_ok (ih rest)]
      exact run

end Eval

/-- What is remembered is remembered in one of two maps. -/
theorem Memory.mem_of_value? {m : Memory F} {i : Nat} {y : F × Bool} (h : m.value? i = some y) :
    i ∈ m.invariant ∨ i ∈ m.varying := by
  rw [value?] at h
  split at h
  case h_1 found => exact .inl (Std.TreeMap.mem_iff_isSome_getElem?.mpr (by rw [found]; rfl))
  case h_2 =>
      obtain ⟨x, found, -⟩ := Option.map_eq_some_iff.mp h
      exact .inr (Std.TreeMap.mem_iff_isSome_getElem?.mpr (by rw [found]; rfl))

/-- A value that is kept adds its position to those that are remembered. -/
theorem Memory.mem_of_keep {m : Memory F} {i j : Nat} {x : F} {varies : Bool}
    (h : j ∈ (m.keep i x varies).invariant ∨ j ∈ (m.keep i x varies).varying) :
    j = i ∨ j ∈ m.invariant ∨ j ∈ m.varying := by
  cases varies with
  | false =>
      simp only [keep, Bool.false_eq_true, if_false, Std.TreeMap.mem_insert, compare_eq_iff_eq] at h
      rcases h with (rfl | h) | h
      · exact .inl rfl
      · exact .inr (.inl h)
      · exact .inr (.inr h)
  | true =>
      simp only [keep, if_true, Std.TreeMap.mem_insert, compare_eq_iff_eq] at h
      rcases h with h | rfl | h
      · exact .inr (.inl h)
      · exact .inl rfl
      · exact .inr (.inr h)

namespace Problem

/-! ## Changes of the memory -/

/-- One change of the memory of an evaluation. -/
inductive Remembers (p : Problem F) (m : Memory F) : Memory F → Prop where
  | value (i : Nat) (inside : i < p.arena.size) (x : F) (varies : Bool) :
      Remembers p m (m.keep i x varies)
  | iteration (it : Option Nat) : Remembers p m (m.moveTo it)
  | loop (i : Nat) (acc : Accumulator F) : Remembers p m { m with loops := m.loops.insert i acc }
  | chain (i : Nat) (chain : Chain) : Remembers p m { m with chains := m.chains.insert i chain }

/-- A computation that only makes such changes. -/
def Moves (p : Problem F) (c : Eval F α) : Prop :=
  ∀ (m m' : Memory F) (x : α), c.run m = .ok (x, m') →
    Relation.ReflTransGen p.Remembers m m'

variable {p : Problem F}

theorem moves_pure (x : α) : p.Moves (pure x) := by
  rintro m _ _ ⟨⟩
  exact .refl

theorem moves_throw (e : Failure) : p.Moves (throw e : Eval F α) := by
  rintro m _ _ ⟨⟩

theorem moves_throw_bind (e : Failure) (f : α → Eval F β) :
    p.Moves ((throw e : Eval F α) >>= f) := by
  rintro m _ _ ⟨⟩

theorem moves_lift (c : Except Failure α) : p.Moves (liftM c : Eval F α) := by
  intro m m' x h
  cases c with
  | error e => cases h
  | ok y => exact moves_pure y m m' x h

theorem moves_present (x? : Option α) : p.Moves (present x? : Eval F α) := by
  cases x? with
  | none => exact moves_throw _
  | some x => exact moves_pure x

theorem moves_get : p.Moves (get : Eval F (Memory F)) := by
  rintro m _ _ ⟨⟩
  exact .refl

theorem moves_modify {f : Memory F → Memory F} (h : ∀ m, p.Remembers m (f m)) :
    p.Moves (modify f : Eval F PUnit) := by
  rintro m _ _ ⟨⟩
  exact .single (h m)

theorem Moves.bind {c : Eval F α} {f : α → Eval F β} (hc : p.Moves c)
    (hf : ∀ x, p.Moves (f x)) : p.Moves (c >>= f) := by
  intro m m'' y h
  obtain ⟨x, m', first, rest⟩ := Eval.bind_eq_ok h
  exact (hc m m' x first).trans (hf x m' m'' y rest)

theorem moves_option_bind {c : Eval F (Option α)} {f : Option α → Eval F β} (hc : p.Moves c)
    (some : ∀ x, p.Moves (f (some x))) (none : p.Moves (f none)) : p.Moves (c >>= f) :=
  hc.bind fun x? => by
    cases x? with
    | none => exact none
    | some x => exact some x

/-- What a computation without a memory gives may be used. -/
theorem moves_lift_bind {c : Except Failure α} {f : α → Eval F β}
    (h : ∀ x, c = .ok x → p.Moves (f x)) : p.Moves ((liftM c : Eval F α) >>= f) := by
  intro m m' y run
  obtain ⟨x, hx, rest⟩ := Eval.lift_bind_eq_ok run
  exact h x hx m m' y rest

theorem moves_foldlM {f : β → α → Eval F β} (hf : ∀ y x, p.Moves (f y x)) (xs : List α) (y : β) :
    p.Moves (xs.foldlM f y) := by
  induction xs generalizing y with
  | nil => exact moves_pure y
  | cons x xs ih =>
      rw [List.foldlM_cons]
      exact (hf y x).bind ih

/-! ## Evaluation -/

theorem moves_iterationFor (r : NodeRef) : p.Moves (iterationFor r : Eval F Nat) := by
  refine moves_get.bind fun m => ?_
  cases m.iteration with
  | none => exact moves_throw _
  | some i => exact moves_pure i

section

variable [Scalar F] {run : NodeRef → Eval F (Accumulator F)} (hrun : ∀ loop, p.Moves (run loop))

include hrun

theorem moves_locationValue (loop : NodeRef) (location : Nat) :
    p.Moves (locationValue run loop location) := by
  refine moves_get.bind fun m => ?_
  cases m.loops[loop.index]? with
  | some acc => exact moves_pure _
  | none =>
      exact (hrun loop).bind fun acc => (moves_modify fun m => .loop loop.index acc).bind fun _ =>
        moves_pure _

theorem moves_nodeValue (marks : Marks F) (r : NodeRef) (n : Node F) :
    p.Moves (p.nodeValue run marks r n) := by
  cases kind : n.kind with
  | independent =>
      simp only [nodeValue, kind]
      exact (moves_present _).bind fun _ => (moves_present _).bind fun _ =>
        (moves_lift _).bind fun _ => moves_pure _
  | assign | synonym =>
      simp only [nodeValue, kind]
      exact (moves_present _).bind fun _ => moves_lift _
  | op code =>
      simp only [nodeValue, kind]
      refine (moves_present _).bind fun v => (moves_lift _).bind fun x => ?_
      cases n.args[1]? <;> refine Moves.bind ?_ fun y => ?_
      case none.refine_1 => exact moves_pure _
      case some.refine_1 => exact moves_lift _
      all_goals
        split
        case h_1 => exact (moves_present _).bind fun _ => (moves_pure _).bind fun _ => moves_pure _
        case h_2 => exact (moves_pure _).bind fun _ => moves_pure _
  | compound op =>
      simp only [nodeValue, kind]
      exact (moves_present _).bind fun _ => (moves_lift _).bind fun _ =>
        (moves_present _).bind fun _ => (moves_lift _).bind fun _ => moves_pure _
  | iteration =>
      simp only [nodeValue, kind]
      exact (moves_iterationFor r).bind fun _ => moves_pure _
  | indexedRead =>
      simp only [nodeValue, kind]
      exact (moves_iterationFor r).bind fun _ => (moves_present _).bind fun _ =>
        (moves_lift _).bind fun _ => (moves_present _).bind fun _ =>
        (moves_lift _).bind fun _ => moves_pure _
  | accumulate =>
      simp only [nodeValue, kind]
      refine (moves_present _).bind fun location => ?_
      refine (moves_foldlM (fun sum arg => ?_) _ _).bind fun _ => moves_pure _
      have located (loop : NodeRef) :
          p.Moves (do return Scalar.binary .add sum (← locationValue run loop location)) :=
        (moves_locationValue hrun loop location).bind fun _ => moves_pure _
      have read : p.Moves (do return Scalar.binary .add sum (← operand marks r arg).1) :=
        (moves_lift _).bind fun _ => moves_pure _
      cases arg with
      | const x => exact moves_option_bind (moves_pure _) located read
      | node a => exact (moves_lift _).bind fun _ => moves_option_bind (moves_pure _) located read
  | _ =>
      simp only [nodeValue, kind]
      exact moves_throw _

/-- A visit remembers values of nodes that are there. -/
theorem moves_visit (depth : Nat) (r : NodeRef) (marks : Marks F) :
    p.Moves (p.visit run depth r marks) := by
  induction depth generalizing r marks with
  | zero => exact moves_throw _
  | succ depth ih =>
      rw [visit]
      refine moves_get.bind fun m => ?_
      split
      case h_1 => exact moves_pure _
      case h_2 => exact moves_pure _
      case h_3 => exact moves_throw _
      case h_4 =>
          refine moves_lift_bind fun n hn => (moves_lift _).bind fun children => ?_
          have inside := (Array.getElem?_eq_some_iff.mp (Arena.node_eq_ok_iff.mp hn).2).1
          exact (moves_foldlM (fun marks a => ih a marks) _ _).bind fun marks =>
            (moves_nodeValue hrun marks r n).bind fun y =>
            (moves_modify fun m => .value r.index inside y.1 y.2).bind fun _ => moves_pure _

theorem moves_value (r : NodeRef) : p.Moves (p.value run r) := by
  rw [value]
  refine moves_get.bind fun m => ?_
  split
  case h_1 => exact moves_pure _
  case h_2 =>
      refine (moves_visit hrun _ _ _).bind fun marks => ?_
      split
      case h_1 => exact moves_pure _
      case h_2 => exact moves_throw _

end

theorem moves_chainOf (endIf : NodeRef) : p.Moves (p.chainOf endIf) := by
  refine moves_get.bind fun m => ?_
  cases m.chains[endIf.index]? with
  | some chain => exact moves_pure _
  | none =>
      exact (moves_lift _).bind fun chain =>
        (moves_modify fun m => .chain endIf.index chain).bind fun _ => moves_pure _

variable [Scalar F]

theorem moves_execute {value : NodeRef → Eval F F} (hvalue : ∀ r, p.Moves (value r)) (depth : Nat)
    (r : NodeRef) (acc : Accumulator F) : p.Moves (p.execute value depth r acc) := by
  induction depth generalizing r acc with
  | zero => exact moves_throw _
  | succ depth ih =>
      rw [execute]
      refine (moves_lift _).bind fun n => ?_
      split
      case h_1 =>
          refine (moves_iterationFor r).bind fun i => (moves_present _).bind fun v => ?_
          have write (x : F) : p.Moves (do
              let location ← p.patternAt (← present n.info[0]?) i
              if (← present n.info[1]?) = 1 then
                return acc.insert location (Scalar.binary .add (acc.getD location Scalar.zero) x)
              else
                return acc.insert location x) := by
            refine (moves_present _).bind fun _ => (moves_lift _).bind fun _ =>
              (moves_present _).bind fun _ => ?_
            split <;> exact moves_pure _
          cases v with
          | const x => exact (moves_pure x).bind write
          | node a => exact (hvalue a).bind write
      case h_2 =>
          exact (moves_chainOf r).bind fun chain => (moves_iterationFor r).bind fun i =>
            (moves_lift _).bind fun results => moves_foldlM (fun acc result =>
              (moves_lift _).bind fun guarded => ih guarded acc) _ _
      case h_3 => exact moves_throw _

omit [Scalar F] in
theorem moves_iterate {body : Nat → Accumulator F → Eval F (Accumulator F)}
    (hbody : ∀ i acc, p.Moves (body i acc)) (count i : Nat) (acc : Accumulator F) :
    p.Moves (iterate body count i acc) := by
  induction count generalizing i acc with
  | zero => exact moves_pure acc
  | succ count ih => exact (hbody i acc).bind fun acc => ih (i + 1) acc

theorem moves_runLoop (depth : Nat) (loop : NodeRef) : p.Moves (p.runLoop depth loop) := by
  induction depth generalizing loop with
  | zero => exact moves_throw _
  | succ depth ih =>
      rw [runLoop]
      refine (moves_lift _).bind fun n => (moves_present _).bind fun v => ?_
      have body (i : Nat) (acc : Accumulator F) : p.Moves (do
          modify fun m => m.moveTo (some i)
          (n.args.tail.filterMap Value.node?).foldlM (fun acc r =>
            p.execute (p.value (p.runLoop depth)) p.depth r acc) acc) :=
        (moves_modify fun m => .iteration (some i)).bind fun _ =>
          moves_foldlM (fun acc r => moves_execute (moves_value ih) p.depth r acc) _ acc
      cases v with
      | const x => exact moves_throw_bind _ _
      | node start =>
          exact (moves_pure start).bind fun _ => (moves_lift _).bind fun _ =>
            (moves_present _).bind fun _ => moves_get.bind fun m =>
            (moves_iterate body _ 0 ∅).bind fun _ =>
            (moves_modify fun _ => .iteration m.iteration).bind fun _ => moves_pure _

theorem moves_output (v : Value F) : p.Moves (p.output v) := by
  cases v with
  | const x => exact moves_pure x
  | node r => exact moves_value (moves_runLoop p.depth) r

/-- Outputs are evaluated one after another. -/
theorem moves_outputs (vs : List (Value F)) : p.Moves (vs.mapM p.output) := by
  induction vs with
  | nil => exact moves_pure []
  | cons v vs ih =>
      rw [List.mapM_cons]
      exact (moves_output v).bind fun x => ih.bind fun xs => moves_pure (x :: xs)

/-! ## What is remembered -/

omit [Scalar F] in
/-- Only values of nodes of the arena are remembered. -/
theorem lt_of_remembered {m : Memory F}
    (h : Relation.ReflTransGen p.Remembers Memory.empty m) {i : Nat}
    (mem : i ∈ m.invariant ∨ i ∈ m.varying) : i < p.arena.size := by
  induction h with
  | refl => simp [Memory.empty] at mem
  | tail _ change ih =>
      cases change with
      | value j inside x varies =>
          rcases Memory.mem_of_keep mem with rfl | mem
          · exact inside
          · exact ih mem
      | iteration it => exact ih (.inl (by simpa [Memory.moveTo] using mem))
      | loop j acc => exact ih mem
      | chain j chain => exact ih mem

omit [Scalar F] in
theorem node_of_foreign {a : Arena F} {r : NodeRef} (foreign : a.owns r = false) :
    a.node r = .error (.error (.staleHandle r.arena r.index)) := by
  cases found : a.node r with
  | ok n =>
      obtain ⟨arena, hn⟩ := Arena.node_eq_ok_iff.mp found
      rw [Arena.owns_iff.mpr ⟨arena, (Array.getElem?_eq_some_iff.mp hn).1⟩] at foreign
      cases foreign
  | error e =>
      rw [Arena.node] at found
      split at found
      case h_1 =>
          split at found <;> cases found
          rfl
      case h_2 =>
          cases found
          rfl

/-- A value that is remembered is given. -/
theorem run_value_remembered {r : NodeRef} {m : Memory F} {y : F × Bool}
    (found : m.value? r.index = some y) (run : NodeRef → Eval F (Accumulator F)) :
    (p.value run r).run m = .ok (y.1, m) := by
  rw [value, Eval.run_get_bind, found]
  rfl

/-- A handle that is not one of the arena is refused if nothing is remembered
at its position. -/
theorem run_value_foreign {r : NodeRef} (foreign : p.arena.owns r = false) {m : Memory F}
    (new : m.value? r.index = none) (run : NodeRef → Eval F (Accumulator F)) :
    (p.value run r).run m = .error (.error (.staleHandle r.arena r.index)) := by
  have stale : (p.visit run p.depth r ∅).run m =
      .error (.error (.staleHandle r.arena r.index)) := by
    rw [depth, visit, Eval.run_get_bind, new, Std.TreeMap.getElem?_emptyc,
      node_of_foreign foreign]
    rfl
  rw [value, Eval.run_get_bind, new]
  simp only [StateT.run_bind, stale]
  rfl

/-- A handle that is not one of the arena has a value only if one is
remembered at its position. -/
theorem value?_of_run_foreign {r : NodeRef} (foreign : p.arena.owns r = false) {m m' : Memory F}
    {x : F} (h : (p.output (.node r)).run m = .ok (x, m')) :
    ∃ y, m.value? r.index = some y ∧ x = y.1 ∧ m' = m := by
  cases found : m.value? r.index with
  | none => cases (run_value_foreign foreign found _).symm.trans h
  | some y =>
      cases (run_value_remembered found _).symm.trans h
      exact ⟨y, rfl, rfl, rfl⟩

end Problem

/-! ## Outputs -/

namespace Arena

variable [Scalar F] {a : Arena F} {vs : List (Value F)} {inputs : List (List F)} {r : NodeRef}

theorem evaluate_eq_ok_iff {ys : List F} : a.evaluate vs inputs = .ok ys ↔
    ∃ m, (vs.mapM (Problem.output ⟨a, inputs.map List.toArray⟩)).run Memory.empty =
      .ok (ys, m) := by
  rw [evaluate, StateT.run'_eq]
  cases (vs.mapM (Problem.output ⟨a, inputs.map List.toArray⟩)).run Memory.empty with
  | error e => simp
  | ok res =>
      constructor
      · rintro ⟨⟩
        exact ⟨res.2, rfl⟩
      · rintro ⟨m, ⟨⟩⟩
        rfl

/-- The node at the position of a handle, in the arena itself. -/
def rehome (a : Arena F) : Value F → Value F
  | .const x => .const x
  | .node r => .node (a.handle r.index)

theorem run_output_rehome {p : Problem F} {v : Value F} {m m' : Memory F} {x : F}
    (h : (p.output v).run m = .ok (x, m')) :
    (p.output (p.arena.rehome v)).run m = .ok (x, m') := by
  cases v with
  | const y => exact h
  | node r =>
      by_cases home : r.arena = p.arena.id
      · have same : p.arena.handle r.index = r := by rw [handle, ← home]
        rwa [rehome, same]
      · have foreign : p.arena.owns r = false := by simp [owns, home]
        obtain ⟨y, found, rfl, rfl⟩ := Problem.value?_of_run_foreign foreign h
        exact Problem.run_value_remembered (r := p.arena.handle r.index) found (p.runLoop p.depth)

/-- An evaluation that succeeds gives the values of the nodes at the positions
of the outputs, whatever arenas these name. -/
theorem evaluate_rehomed {ys : List F} (h : a.evaluate vs inputs = .ok ys) :
    a.evaluate (vs.map a.rehome) inputs = .ok ys := by
  obtain ⟨m, run⟩ := evaluate_eq_ok_iff.mp h
  exact evaluate_eq_ok_iff.mpr ⟨m, Eval.run_mapM_map (fun _ _ _ _ => run_output_rehome) run⟩

/-- A handle that is not one of the arena, somewhere among the outputs, is
taken only if the value at its position is remembered from those before. -/
theorem exists_remembered {us ws : List (Value F)} {ys : List F} (foreign : a.owns r = false)
    (h : a.evaluate (us ++ .node r :: ws) inputs = .ok ys) :
    ∃ xs m y, (us.mapM (Problem.output ⟨a, inputs.map List.toArray⟩)).run Memory.empty =
      .ok (xs, m) ∧ m.value? r.index = some y := by
  obtain ⟨m, run⟩ := evaluate_eq_ok_iff.mp h
  rw [List.mapM_append] at run
  obtain ⟨xs, m₁, first, run⟩ := Eval.bind_eq_ok run
  obtain ⟨zs, m₂, rest, -⟩ := Eval.bind_eq_ok run
  rw [List.mapM_cons] at rest
  obtain ⟨z, m₃, one, -⟩ := Eval.bind_eq_ok rest
  obtain ⟨y, found, -⟩ := Problem.value?_of_run_foreign foreign one
  exact ⟨xs, m₁, y, first, found⟩

/-- A handle past the end of the arena is refused next to any other outputs. -/
theorem evaluate_past_end (mem : .node r ∈ vs) (past : a.size ≤ r.index) :
    ∃ e, a.evaluate vs inputs = .error e := by
  have foreign : a.owns r = false := by
    rw [← Bool.not_eq_true, owns_iff]
    exact fun own => absurd own.2 (Nat.not_lt.mpr past)
  obtain ⟨us, ws, rfl⟩ := List.append_of_mem mem
  cases h : a.evaluate (us ++ .node r :: ws) inputs with
  | error e => exact ⟨e, rfl⟩
  | ok ys =>
      obtain ⟨xs, m, y, run, found⟩ := exists_remembered foreign h
      have remembered : r.index ∈ m.invariant ∨ r.index ∈ m.varying := Memory.mem_of_value? found
      have inside := Problem.lt_of_remembered (Problem.moves_outputs us _ m xs run) remembered
      exact absurd inside (Nat.not_lt.mpr past)

/-- A handle of another arena after some outputs is taken exactly if the value
at its position is remembered from them. -/
theorem evaluate_foreign_iff (foreign : a.owns r = false) :
    (∃ ys, a.evaluate (vs ++ [.node r]) inputs = .ok ys) ↔
      ∃ xs m y, (vs.mapM (Problem.output ⟨a, inputs.map List.toArray⟩)).run Memory.empty =
        .ok (xs, m) ∧ m.value? r.index = some y := by
  refine ⟨fun ⟨ys, h⟩ => exists_remembered foreign h, fun ⟨xs, m, y, run, found⟩ => ?_⟩
  refine ⟨xs ++ [y.1], evaluate_eq_ok_iff.mpr ⟨m, ?_⟩⟩
  have last : ([.node r].mapM (Problem.output ⟨a, inputs.map List.toArray⟩)).run m =
      .ok ([y.1], m) := by
    rw [List.mapM_cons]
    exact Eval.run_bind_ok (Problem.run_value_remembered found _) _
  rw [List.mapM_append, Eval.run_bind_ok run, Eval.run_bind_ok last]
  rfl

/-- The input of another arena is refused, but not after the input at the same
position. -/
example : (Arena.evaluate ⟨1, #[⟨.independent, [], [0, 0], false⟩], #[]⟩ [.node ⟨2, 0⟩] [[3]] :
      Except Failure (List ℚ)) = .error (.error (.staleHandle 2 0)) ∧
    (Arena.evaluate ⟨1, #[⟨.independent, [], [0, 0], false⟩], #[]⟩
      [.node ⟨1, 0⟩, .node ⟨2, 0⟩] [[3]] : Except Failure (List ℚ)) = .ok [3, 3] := by
  decide +kernel

end Arena

end LoopDiff
