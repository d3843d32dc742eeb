import LoopDiff.Loop.Scope
import LoopDiff.Proofs.Graph.Derived
import LoopDiff.Proofs.Tape.Lockstep

/-!
# LoopDiff.Proofs.Graph.Replay

Tapes replayed on recorded values.

A loop body is recorded from inputs, reads through index patterns and
operations (`Arena.Unfolds`).  Running a tape on its values records values
that evaluate, at any iteration, to what the tape gives on the numbers that
the inputs evaluate to (`Arena.Body.replay`).

A body may read inputs that are not there, and then some of its values have
no number.  An evaluation that succeeds shows that the number is there
(`Problem.known?_of_visit`).
-/

namespace LoopDiff

open Std (TreeMap)

variable {F : Type}

/-! ## Loop bodies -/

namespace Arena

/-- One step of recording a loop body. -/
inductive Unfolds [Scalar F] : Arena F → Arena F → Prop where
  | independent (a : Arena F) (array position : Nat) :
      Unfolds a ((newIndependent array position).run.run a).2
  | operation (a : Arena F) (s : Operation (Value F)) : Unfolds a (s.record.run.run a).2
  | begin (a : Arena F) (loop iterations : Nat) :
      Unfolds a ((LoopScope.begin (F := F) loop iterations).runIn a).2
  | read (a : Arena F) (s : LoopScope) (array : Nat) (p : Pattern) :
      Unfolds a ((s.read (F := F) array p).runIn a).2

/-- An arena that holds the body of a loop. -/
def Body [Scalar F] (a : Arena F) : Prop := ∃ id, Relation.ReflTransGen Unfolds (empty id) a

/-- The nodes of a loop body that compute nothing from other nodes. -/
def bodySource (kind : Kind) (info : List Nat) : Prop :=
  match kind with
  | .independent | .indexedRead => ∃ i j, info = [i, j]
  | .iteration | .loopStart => True
  | _ => False

end Arena

namespace Recording

open Arena

variable {source : Kind → List Nat → Prop} {α β : Type}

/-- A recording that keeps graphs straight and preserves their numbers,
whatever its outcome. -/
def Advances (source : Kind → List Nat → Prop) (c : Recording F α) : Prop :=
  ∀ a : Arena F, a.Straight source →
    ∃ r a', c.run.run (some a) = (r, some a') ∧ a.Preserves a' ∧ a'.Straight source

theorem advances_pure (x : α) : Advances source (pure x : Recording F α) :=
  fun a h => ⟨_, a, rfl, .refl a, h⟩

theorem advances_reporting {c : ArenaM F α} (hc : Arena.Advances source c) :
    Advances source (reporting c) := by
  intro a h
  obtain ⟨kept, straight⟩ := hc a h
  exact ⟨_, _, rfl, kept, straight⟩

theorem Advances.bind {c : Recording F α} {f : α → Recording F β} (hc : Advances source c)
    (hf : ∀ x, Advances source (f x)) : Advances source (c >>= f) := by
  intro a h
  obtain ⟨r, a', run, kept, straight⟩ := hc a h
  have runs := Recording.run_bind_some (f := f) run
  cases r with
  | error e => exact ⟨_, a', runs, kept, straight⟩
  | ok x =>
      obtain ⟨r, a'', run', kept', straight'⟩ := hf x a' straight
      exact ⟨r, a'', runs.trans run', kept.trans kept', straight'⟩

theorem Advances.runIn {c : Recording F α} (hc : Advances source c) {a : Arena F}
    (h : a.Straight source) :
    a.Preserves (c.runIn a).2 ∧ (c.runIn a).2.Straight source := by
  obtain ⟨r, a', run, kept, straight⟩ := hc a h
  rw [Recording.runIn, run]
  exact ⟨kept, straight⟩

variable [Scalar F]

theorem advances_begin (loop iterations : Nat) :
    Advances bodySource (LoopScope.begin (F := F) loop iterations) :=
  (advances_reporting (advances_push (.inr trivial))).bind fun _ =>
    (advances_reporting (advances_push (.inr trivial))).bind fun _ => advances_pure _

omit [Scalar F] in
theorem advances_addPattern (p : Pattern) (n : Nat) :
    Arena.Advances source (addPattern p n : ArenaM F Nat) := by
  intro a h
  obtain ⟨i, a', run, le, -, nodes⟩ := yields_addPattern (a := a) p n
  rw [run]
  exact ⟨preserves_of_le le, fun hn => h.node (nodes ▸ hn),
    fun hn hr => (preserves_of_le le).id_eq ▸ h.before (nodes ▸ hn) hr⟩

theorem advances_read (s : LoopScope) (array : Nat) (p : Pattern) :
    Advances bodySource (s.read (F := F) array p) :=
  (advances_reporting (advances_addPattern p s.iterations)).bind fun _ =>
    (advances_reporting (advances_push (.inr ⟨_, _, rfl⟩))).bind fun _ => advances_pure _

end Recording

namespace Arena

variable [Scalar F] {a a' : Arena F}

theorem Unfolds.advance (h : a.Unfolds a') (straight : a.Straight bodySource) :
    a.Preserves a' ∧ a'.Straight bodySource := by
  cases h with
  | independent array position => exact advances_newIndependent ⟨_, _, rfl⟩ a straight
  | operation s => exact s.advances_record a straight
  | begin loop iterations => exact (Recording.advances_begin loop iterations).runIn straight
  | read s array p => exact (Recording.advances_read s array p).runIn straight

theorem Body.straight (h : a.Body) : a.Straight bodySource := by
  obtain ⟨id, steps⟩ := h
  induction steps with
  | refl => exact straight_empty id
  | tail _ step ih => exact (step.advance ih).2

end Arena

/-! ## Evaluation at an iteration -/

namespace Eval

variable {α β : Type}

/-- The parts of a computation that succeeds. -/
theorem bind_eq_ok {c : Eval F α} {f : α → Eval F β} {m m'' : Memory F} {y : β}
    (h : (c >>= f).run m = .ok (y, m'')) :
    ∃ x m', c.run m = .ok (x, m') ∧ (f x).run m' = .ok (y, m'') := by
  rw [StateT.run_bind] at h
  cases hc : c.run m with
  | error e =>
      rw [hc] at h
      cases h
  | ok r =>
      rw [hc] at h
      exact ⟨r.1, r.2, rfl, h⟩

theorem lift_bind_eq_ok {c : Except Failure α} {f : α → Eval F β} {m m' : Memory F} {y : β}
    (h : ((liftM c : Eval F α) >>= f).run m = .ok (y, m')) :
    ∃ x, c = .ok x ∧ (f x).run m = .ok (y, m') := by
  cases c with
  | error e => cases h
  | ok x => exact ⟨x, rfl, h⟩

theorem present_bind_eq_ok {x? : Option α} {f : α → Eval F β} {m m' : Memory F} {y : β}
    (h : ((present x? : Eval F α) >>= f).run m = .ok (y, m')) :
    ∃ x, x? = some x ∧ (f x).run m = .ok (y, m') := by
  cases x? with
  | none => cases h
  | some x => exact ⟨x, rfl, h⟩

end Eval

/-- Whether a node of this kind computes a number from its arguments. -/
def Kind.isComputed : Kind → Bool
  | assign | op _ | compound _ => true
  | _ => false

/-- Whether a node of this kind may have a number that is not computed from
other nodes. -/
def Kind.isGiven (kind : Kind) : Bool := kind.tier == 0 && !kind.isComputed

theorem Kind.isGiven_iff {kind : Kind} :
    kind.isGiven = true ↔ kind.tier = 0 ∧ kind.isComputed = false := by
  rw [isGiven, Bool.and_eq_true, beq_iff_eq, Bool.not_eq_true']

theorem Kind.isGiven_of_isRead {kind : Kind} (h : kind.isRead = true) : kind.isGiven = true := by
  cases kind <;> first | rfl | cases h

namespace Arena

variable {a : Arena F} {source : Kind → Bool}

theorem Derived.mono {source' : Kind → Bool} {v : Value F} (h : a.Derived source v)
    (imp : ∀ k, source k = true → source' k = true) : a.Derived source' v := by
  induction h with
  | const x => exact .const x
  | source hn given => exact .source hn (imp _ given)
  | computed hn computes before _ ih => exact .computed hn computes before ih

/-- In a straight graph every node is derived from nodes that are given. -/
theorem Straight.derived (h : a.Straight bodySource) {r : NodeRef} {n : Node F}
    (hn : a.node r = .ok n) : a.Derived Kind.isGiven (.node r) := by
  induction i : r.index using Nat.strong_induction_on generalizing r n with
  | _ i ih =>
    subst i
    obtain ⟨arena, at_⟩ := node_eq_ok_iff.mp hn
    rcases h.node at_ with computes | isSource
    · refine .computed hn computes (fun s hs => (h.before at_ hs).2) fun v hv => ?_
      cases v with
      | const x => exact .const x
      | node s =>
          obtain ⟨arena', lt⟩ := h.before at_ hv
          have there := lt.trans (Array.getElem?_eq_some_iff.mp at_).1
          exact ih s.index lt (node_eq arena' (Array.getElem?_eq_getElem there)) rfl
    · refine .source hn ?_
      cases kind : n.kind <;> first | rfl | simp [bodySource, kind] at isSource

end Arena

namespace Problem

variable [Scalar F] {p : Problem F}

/-- A number of a node of the lowest tier is one of a value node. -/
theorem known?_of_current? {it : Option Nat} {i : Nat} {n : Node F} {y : F × Bool}
    (hn : p.arena.nodes[i]? = some n) (low : n.kind.tier = 0) (h : p.current? it i = some y) :
    p.known? it i = some y := by
  rcases Option.or_eq_some_iff.mp h with known | ⟨-, fixed⟩
  · exact known
  · obtain ⟨x, hx, rfl⟩ := Option.map_eq_some_iff.mp fixed
    rw [fixed?, hn, Option.bind_eq_bind, Option.bind_some] at hx
    split at hx
    case h_1 kind _ => simp [kind, Kind.tier] at low
    case h_2 =>
        rw [proper?, hn, Option.bind_eq_bind, Option.bind_some,
          if_neg fun kind => by simp [kind, Kind.tier] at low, Option.map_eq_some_iff] at hx
        obtain ⟨⟨z, varies⟩, hz, rfl⟩ := hx
        obtain rfl := varies_of_outside hz
        exact known?_of_invariant hz it

omit [Scalar F] in
theorem input?_of_input {array position : Nat} {x : F} (h : p.input array position = .ok x) :
    p.input? array position = some x := by
  rw [input] at h
  split at h
  case h_1 found =>
      cases h
      exact found
  case h_2 => cases h

omit [Scalar F] in
theorem pattern?_of_patternAt {pattern it position : Nat}
    (h : p.patternAt pattern it = .ok position) :
    ((p.arena.pattern? pattern).bind fun q => q.eval it) = some position := by
  rw [patternAt] at h
  split at h
  case h_1 found =>
      cases h
      exact found
  case h_2 => cases h

omit [Scalar F] in
theorem iteration_of_iterationFor {r : NodeRef} {m m' : Memory F} {i : Nat}
    (h : (iterationFor r : Eval F Nat).run m = .ok (i, m')) : m.iteration = some i ∧ m' = m := by
  obtain ⟨_, _, hget, h⟩ := Eval.bind_eq_ok h
  cases hget
  cases found : m.iteration with
  | none =>
      simp only [found] at h
      cases h
  | some j =>
      simp only [found] at h
      cases h
      exact ⟨rfl, rfl⟩

/-- A node that computes nothing and gives a value has a number. -/
theorem result?_of_nodeValue {run : NodeRef → Eval F (Accumulator F)} {marks : Marks F}
    {r : NodeRef} {n : Node F} {m m' : Memory F} {y : F × Bool} (low : n.kind.tier = 0)
    (given : n.kind.isComputed = false) (h : (p.nodeValue run marks r n).run m = .ok (y, m')) :
    n.valueArgs = [] ∧ ∃ x, n.result? p m.iteration [] = some x := by
  cases kind : n.kind with
  | independent =>
      simp only [nodeValue, kind] at h
      obtain ⟨array, harray, h⟩ := Eval.present_bind_eq_ok h
      obtain ⟨position, hposition, h⟩ := Eval.present_bind_eq_ok h
      obtain ⟨x, hx, -⟩ := Eval.lift_bind_eq_ok h
      refine ⟨by simp only [Node.valueArgs, kind], x, ?_⟩
      simp only [Node.result?, kind, harray, hposition, Option.bind_eq_bind, Option.bind_some]
      exact input?_of_input hx
  | indexedRead =>
      simp only [nodeValue, kind] at h
      obtain ⟨i, m₁, hi, rest⟩ := Eval.bind_eq_ok h
      obtain ⟨hi, rfl⟩ := iteration_of_iterationFor hi
      obtain ⟨pattern, hpattern, rest⟩ := Eval.present_bind_eq_ok rest
      obtain ⟨position, hposition, rest⟩ := Eval.lift_bind_eq_ok rest
      obtain ⟨array, harray, rest⟩ := Eval.present_bind_eq_ok rest
      obtain ⟨x, hx, -⟩ := Eval.lift_bind_eq_ok rest
      refine ⟨by simp only [Node.valueArgs, kind], x, ?_⟩
      simp only [Node.result?, kind, harray, hpattern, Option.bind_eq_bind, Option.bind_some, hi,
        pattern?_of_patternAt hposition]
      exact input?_of_input hx
  | iteration =>
      simp only [nodeValue, kind] at h
      obtain ⟨i, m₁, hi, -⟩ := Eval.bind_eq_ok h
      obtain ⟨hi, rfl⟩ := iteration_of_iterationFor hi
      exact ⟨by simp only [Node.valueArgs, kind], _, by simp only [Node.result?, kind, hi]; rfl⟩
  | loopStart | indexedWrite | condition =>
      simp only [nodeValue, kind] at h
      cases h
  | _ => simp [kind, Kind.tier, Kind.isComputed] at low given

omit [Scalar F] in
/-- A node that computes nothing has no operands. -/
theorem operands_of_given {n : Node F} (low : n.kind.tier = 0)
    (given : n.kind.isComputed = false) : p.operands n = .ok [] := by
  cases kind : n.kind <;> first
    | simp [kind, Kind.tier, Kind.isComputed] at low given; done
    | simp only [operands, kind]

omit [Scalar F] in
theorem operands_of_computes {n : Node F} (computes : n.Computes) :
    p.operands n = .ok (n.args.filterMap Value.node?) := by
  cases kind : n.kind with
  | assign =>
      simp only [Node.Computes, kind] at computes
      obtain ⟨v, args⟩ := computes
      simp only [operands, kind, args, List.take_succ_cons, List.take_zero]
  | op code => simp only [operands, kind]
  | compound op => simp only [operands, kind]
  | _ => simp [Node.Computes, kind] at computes

omit [Scalar F] in
/-- A node that is derived from given nodes is one of the lowest tier. -/
theorem node_of_derived {r : NodeRef} (derived : p.arena.Derived Kind.isGiven (.node r)) :
    r.arena = p.arena.id ∧ ∃ n, p.arena.nodes[r.index]? = some n ∧ n.kind.tier = 0 := by
  cases derived with
  | source hn given =>
      exact ⟨(Arena.node_eq_ok_iff.mp hn).1, _, (Arena.node_eq_ok_iff.mp hn).2,
        (Kind.isGiven_iff.mp given).1⟩
  | computed hn computes =>
      exact ⟨(Arena.node_eq_ok_iff.mp hn).1, _, (Arena.node_eq_ok_iff.mp hn).2, computes.tier⟩

/-- A node that is derived from given nodes has a number if its visit
succeeds. -/
theorem known?_of_visit {run : NodeRef → Eval F (Accumulator F)} {depth : Nat} {r : NodeRef}
    {marks marks' : Marks F} {m m' : Memory F}
    (derived : p.arena.Derived Kind.isGiven (.node r)) (deep : r.index < depth)
    (sound : p.Sound m) (hmarks : p.SoundMarks m.iteration marks)
    (later : ∀ i, marks[i]? = some .opened → r.index < i)
    (h : (p.visit run depth r marks).run m = .ok (marks', m')) :
    ∃ y, p.known? m.iteration r.index = some y := by
  induction depth generalizing r marks marks' m m' with
  | zero => exact absurd deep (Nat.not_lt_zero _)
  | succ depth ih =>
    -- operands that have been visited have numbers, since each visit leaves the memory sound
    have fold (cs : List NodeRef) : ∀ (marks marks' : Marks F) (m m' : Memory F),
        (∀ c ∈ cs, c.index < r.index ∧ p.arena.Derived Kind.isGiven (.node c)) → p.Sound m →
        p.SoundMarks m.iteration marks → (∀ i, marks[i]? = some .opened → r.index ≤ i) →
        (cs.foldlM (fun marks a => p.visit run depth a marks) marks).run m = .ok (marks', m') →
        ∀ c ∈ cs, ∃ y, p.known? m.iteration c.index = some y := by
      induction cs with
      | nil => exact fun _ _ _ _ _ _ _ _ _ c hc => absurd hc List.not_mem_nil
      | cons c cs ihs =>
          intro marks marks' m m' before sound hmarks later h
          rw [List.foldlM_cons] at h
          obtain ⟨marks₁, m₁, hc, h⟩ := Eval.bind_eq_ok h
          obtain ⟨lt, child⟩ := before c (List.mem_cons_self ..)
          have later' (i : Nat) (hi : marks[i]? = some .opened) : c.index < i :=
            lt.trans_le (later i hi)
          obtain ⟨y, hy⟩ := ih child (by omega) sound hmarks later' hc
          have ends : Ends (p.visit run depth c marks) m (p.VisitEnds m marks c.index) :=
            ends_visit (node_of_derived child).1 hy (by omega) sound hmarks later'
          obtain ⟨_, _, hc', sound₁, iteration, visited, -⟩ := ends
          cases hc.symm.trans hc'
          have rest := ihs marks₁ marks' m₁ m'
            (fun c' hc' => before c' (List.mem_cons_of_mem _ hc')) sound₁
            (iteration ▸ visited.sound) (fun i hi => later i (visited.opened hi)) h
          rw [iteration] at rest
          exact fun c' hc' => by
            rcases List.mem_cons.mp hc' with rfl | hc'
            · exact ⟨y, hy⟩
            · exact rest c' hc'
    obtain ⟨-, n, hn, low⟩ := node_of_derived derived
    rw [visit] at h
    obtain ⟨_, _, hget, h⟩ := Eval.bind_eq_ok h
    cases hget
    split at h
    case h_1 marked => exact ⟨_, known?_of_current? hn low (hmarks _ _ _ marked)⟩
    case h_2 found _ => exact ⟨_, known?_of_current? hn low (sound.value? found)⟩
    case h_3 opened _ => exact absurd (later _ opened) (Nat.lt_irrefl _)
    case h_4 new _ =>
        obtain ⟨n', hn', h⟩ := Eval.lift_bind_eq_ok h
        obtain ⟨children, hchildren, h⟩ := Eval.lift_bind_eq_ok h
        obtain ⟨marks₁, m₁, hfold, h⟩ := Eval.bind_eq_ok h
        obtain ⟨y, m₂, hvalue, -⟩ := Eval.bind_eq_ok h
        cases derived with
        | @computed _ k hk computes before args =>
            cases hk.symm.trans hn'
            rw [operands_of_computes computes] at hchildren
            cases hchildren
            refine Arena.known?_of_args (Arena.node_eq_ok_iff.mp hk).2 computes
              (fun c hc => ⟨(node_of_derived (args _ hc)).1, before c hc⟩) fun c hc => ?_
            refine fold _ _ _ _ _ (fun c hc => ?_) sound (hmarks.insert_opened _) (fun i hi => ?_)
              hfold c (List.mem_reverse.mpr (Value.mem_nodes.mpr hc))
            · have arg := Value.mem_nodes.mp (List.mem_reverse.mp hc)
              exact ⟨before c arg, args _ arg⟩
            · rw [TreeMap.getElem?_insert] at hi
              split at hi
              case isTrue eq => exact (Std.compare_eq_iff_eq.mp eq).le
              case isFalse => exact (later i hi).le
        | @source _ k hk given =>
            cases hk.symm.trans hn'
            obtain ⟨low, given⟩ := Kind.isGiven_iff.mp given
            rw [operands_of_given low given] at hchildren
            cases hchildren
            cases hfold
            exact Arena.known?_of_source (Arena.node_eq_ok_iff.mp hk).2
              (result?_of_nodeValue low given hvalue)

/-- A node that is visited is one of the arena. -/
theorem node_of_visit {run : NodeRef → Eval F (Accumulator F)} {depth : Nat} {r : NodeRef}
    {marks' : Marks F} {m m' : Memory F} (fresh : m.value? r.index = none)
    (h : (p.visit run (depth + 1) r ∅).run m = .ok (marks', m')) : ∃ n, p.arena.node r = .ok n := by
  rw [visit] at h
  obtain ⟨_, _, hget, h⟩ := Eval.bind_eq_ok h
  cases hget
  split at h
  case h_1 marked => cases marked
  case h_2 found _ =>
      rw [fresh] at found
      cases found
  case h_3 opened _ => cases opened
  case h_4 =>
      obtain ⟨n, hn, -⟩ := Eval.lift_bind_eq_ok h
      exact ⟨n, hn⟩

theorem sound_empty (it : Option Nat) : p.Sound (Memory.empty.moveTo it) where
  invariant h := by cases h
  varying h := by cases h
  loops h := by cases h
  chains h := by cases h

/-- A node that has a value is one of the arena. -/
theorem node_of_value {run : NodeRef → Eval F (Accumulator F)} {it : Option Nat} {r : NodeRef}
    {x : F} {m' : Memory F}
    (h : (p.value run r).run (Memory.empty.moveTo it) = .ok (x, m')) :
    (∃ n, p.arena.node r = .ok n) ∧ ∃ marks m₁,
      (p.visit run p.depth r ∅).run (Memory.empty.moveTo it) = .ok (marks, m₁) := by
  rw [value] at h
  obtain ⟨_, _, hget, h⟩ := Eval.bind_eq_ok h
  cases hget
  change (_ >>= _ : Eval F F).run _ = _ at h
  obtain ⟨marks, m₁, visit, -⟩ := Eval.bind_eq_ok h
  exact ⟨node_of_visit rfl visit, marks, m₁, visit⟩

/-- A node that is derived from given nodes has a number if it has a value. -/
theorem known?_of_value {run : NodeRef → Eval F (Accumulator F)} {it : Option Nat} {r : NodeRef}
    {x : F} {m' : Memory F} (derived : p.arena.Derived Kind.isGiven (.node r))
    (h : (p.value run r).run (Memory.empty.moveTo it) = .ok (x, m')) :
    ∃ y, p.value? it (.node r) = some y := by
  obtain ⟨-, marks, m₁, visit⟩ := node_of_value h
  obtain ⟨arena, n, hn, -⟩ := node_of_derived derived
  have deep : r.index < p.depth := Nat.lt_succ_of_lt (Array.getElem?_eq_some_iff.mp hn).1
  rw [value?, if_pos arena]
  exact known?_of_visit derived deep (sound_empty it)
    (fun i x varies marked => by cases marked) (fun i opened => by cases opened) visit

end Problem

namespace Arena

section

variable [Scalar F]

/-- The number of a value at an iteration, found without anything
remembered. -/
def evaluateAt (a : Arena F) (inputs : List (List F)) (iteration : Nat) (v : Value F) :
    Except Failure F :=
  let p : Problem F := ⟨a, inputs.map List.toArray⟩
  (p.output v).run' (Memory.empty.moveTo (some iteration))

variable {a : Arena F} {inputs : List (List F)} {it : Nat} {v : Value F} {x : F}

/-- A value with a number evaluates to it. -/
theorem evaluateAt_of_value? {varies : Bool}
    (h : Problem.value? ⟨a, inputs.map List.toArray⟩ (some it) v = some (x, varies)) :
    a.evaluateAt inputs it v = .ok x := by
  cases v with
  | const y =>
      cases h
      rfl
  | node r =>
      rw [Problem.value?, Option.ite_none_right_eq_some] at h
      let p : Problem F := ⟨a, inputs.map List.toArray⟩
      have ends : Ends (p.value (p.runLoop p.depth) r) (Memory.empty.moveTo (some it)) _ :=
        Problem.ends_value h.1 h.2 (Problem.sound_empty (some it))
      obtain ⟨_, m', run, rfl, -⟩ := ends
      exact congrArg (Except.map Prod.fst) run

/-- A node that evaluates to a number has a value. -/
theorem value_of_evaluateAt {r : NodeRef} (h : a.evaluateAt inputs it (.node r) = .ok x) :
    let p : Problem F := ⟨a, inputs.map List.toArray⟩
    ∃ m', (p.value (p.runLoop p.depth) r).run (Memory.empty.moveTo (some it)) = .ok (x, m') := by
  intro p
  change Except.map Prod.fst
    ((p.value (p.runLoop p.depth) r).run (Memory.empty.moveTo (some it))) = _ at h
  cases run : (p.value (p.runLoop p.depth) r).run (Memory.empty.moveTo (some it)) with
  | error e =>
      rw [run] at h
      cases h
  | ok z =>
      rw [run] at h
      cases h
      exact ⟨z.2, rfl⟩

/-- A value that is derived from given nodes has the number that it evaluates
to. -/
theorem Derived.value?_of_evaluateAt (derived : a.Derived Kind.isGiven v)
    (h : a.evaluateAt inputs it v = .ok x) :
    ∃ varies, Problem.value? ⟨a, inputs.map List.toArray⟩ (some it) v = some (x, varies) := by
  have number : ∃ y, Problem.value? ⟨a, inputs.map List.toArray⟩ (some it) v = some y := by
    cases v with
    | const y => exact ⟨_, rfl⟩
    | node r =>
        obtain ⟨m', run⟩ := value_of_evaluateAt h
        exact Problem.known?_of_value derived run
  obtain ⟨⟨y, varies⟩, hy⟩ := number
  cases h.symm.trans (evaluateAt_of_value? hy)
  exact ⟨varies, hy⟩

variable [Field F] [ExactScalar F]

theorem Means.evaluateAt (h : a.Means (inputs.map List.toArray) (some it) v x) :
    a.evaluateAt inputs it v = .ok x := by
  obtain ⟨y, varies, hy, rfl⟩ := h
  exact evaluateAt_of_value? hy

/-- In the body of a loop an evaluation that succeeds gives the number of the
value. -/
theorem Body.means (body : a.Body) (h : a.evaluateAt inputs it v = .ok x) :
    a.Means (inputs.map List.toArray) (some it) v x := by
  have derived : a.Derived Kind.isGiven v := by
    cases v with
    | const y => exact .const y
    | node r =>
        obtain ⟨m', run⟩ := value_of_evaluateAt h
        obtain ⟨n, hn⟩ := (Problem.node_of_value run).1
        exact body.straight.derived hn
  obtain ⟨varies, hx⟩ := derived.value?_of_evaluateAt h
  exact ⟨x, varies, hx, rfl⟩

end

/-! ## Replay -/

section

variable [Field F] [Scalar F] [ExactScalar F] [PowerRule F] {a : Arena F} {t : Tape F}
  {inputs : List (List F)} {it : Nat} {vs ws : List (Value F)} {xs ωs : List F}

/-- Values that evaluate to numbers at an iteration, one by one. -/
def EvaluateTo (inputs : List (List F)) (it : Nat) (vs : List (Value F)) (xs : List F)
    (a : Arena F) : Prop :=
  List.Forall₂ (fun v x => a.evaluateAt inputs it v = .ok x) vs xs

/-- Maps with entries at the same pairs, where those of the one evaluate to
those of the other. -/
def EntriesEvaluateTo (inputs : List (List F)) (it : Nat) (E : PairMap (Value F)) (E' : PairMap F)
    (a : Arena F) : Prop :=
  (∀ e, e ∈ E ↔ e ∈ E') ∧ ∀ (e : Nat × Nat) (v : Value F) (x : F), E[e]? = some v →
    E'[e]? = some x → a.evaluateAt inputs it v = .ok x

/-- Running a tape on the values of a loop body and evaluating the results at
an iteration gives what the tape gives on the numbers at that iteration; and
if the tape refuses the numbers, it refuses the values in the same way.

A reverse sweep on values has one failure of its own.  At an exponent that is
too low to be lowered as often as the derivative needs, it crashes even if the
adjoint turns out to be the number zero and the sweep on numbers skips the
entry. -/
theorem Body.replay (body : a.Body) (wf : t.WellFormed) (hx : EvaluateTo inputs it vs xs a)
    (hω : EvaluateTo inputs it ws ωs a) :
    Replays False (t.eval vs) (t.eval xs) a (EvaluateTo inputs it) ∧
    Replays (¬t.Exponents (Exponent.Lowers 1)) (t.gradient vs ws) (t.gradient xs ωs) a
      (EvaluateTo inputs it) ∧
    (∀ rows, Replays False (t.jacobianEntries vs rows) (t.jacobianEntries xs rows) a
      (EntriesEvaluateTo inputs it)) ∧
    ∀ pairs, Replays (¬t.Exponents (Exponent.Lowers 2)) (t.hessianEntries vs ws pairs)
      (t.hessianEntries xs ωs pairs) a (EntriesEvaluateTo inputs it) := by
  let I := Interpretation.recorded F (inputs.map List.toArray) (some it)
  have means {vs : List (Value F)} {xs : List F} (h : EvaluateTo inputs it vs xs a) :
      List.Forall₂ (fun v x => I.means a v x) vs xs := h.imp fun _ _ h => body.means h
  have evaluate (us : List (Value F)) (zs : List F) (a' : Arena F)
      (h : List.Forall₂ (fun v x => I.means a' v x) us zs) : EvaluateTo inputs it us zs a' :=
    h.imp fun _ _ h => Means.evaluateAt h
  have entries (E : PairMap (Value F)) (E' : PairMap F) (a' : Arena F)
      (h : I.meansPairs a' E E') : EntriesEvaluateTo inputs it E E' a' :=
    ⟨h.1, fun e v x hv hx => Means.evaluateAt (h.2 e v x hv hx)⟩
  have powers : I.ReplaysPowi := fun n hv =>
    replays_of_yields (I.powi trivial hv) (exactPowers.powi_eq _ Exponent.lowers_zero)
  refine ⟨?_, ?_, fun rows => ?_, fun pairs => ?_⟩
  · exact (Tape.replays_eval I powers (means hx)).mono fun us zs a' _ => evaluate us zs a'
  · exact (wf.replays_gradient I powers exactPowers (means hx) (means hω)).mono
      fun us zs a' _ => evaluate us zs a'
  · exact (Tape.replays_jacobianEntries I powers (means hx)).mono fun E E' a' _ => entries E E' a'
  · exact (wf.replays_hessianEntries I powers exactPowers (means hx) (means hω)).mono
      fun E E' a' _ => entries E E' a'

end

/-! ## A body that reads an input array -/

/-- The scope of a loop of two iterations in an arena of its own. -/
def twice : LoopScope := ⟨⟨1, 0⟩, ⟨1, 1⟩, 2, [], [], 0, 0⟩

/-- The body of a loop of two iterations that reads consecutive inputs. -/
def reading : Arena ℚ :=
  ⟨1, #[⟨.loopStart, [], [0, 2], false⟩, ⟨.iteration, [.node ⟨1, 0⟩], [], false⟩,
    ⟨.indexedRead, [.node ⟨1, 1⟩], [0, 0], false⟩], #[(.linear 1 0, 2)]⟩

theorem read_twice :
    ((twice.read 0 (.linear 1 0)).runIn ((LoopScope.begin 0 2).runIn (empty 1)).2).2 = reading := by
  let a : Arena ℚ := ((LoopScope.begin 0 2).runIn (empty 1)).2
  have registered : (addPattern (.linear 1 0) 2).run.run a =
      (.ok 0, a.registered (.linear 1 0) 2) := by
    rw [run_addPattern, findPattern?, show a.patterns = #[] from rfl, Array.findIdx?_empty]
    rfl
  have run : (twice.pattern (.linear 1 0)).run.run (some a) =
      (.ok 0, some (a.registered (.linear 1 0) 2)) :=
    congrArg (fun x : Except Failure Nat × Arena ℚ => (x.1, some x.2)) registered
  show ((twice.read 0 (.linear 1 0)).runIn a).2 = reading
  simp only [LoopScope.read, Recording.runIn, ExceptT.run_bind, StateT.run_bind, run]
  rfl

theorem body_reading : reading.Body :=
  ⟨1, read_twice ▸ .tail (.single (.begin _ 0 2)) (.read _ twice 0 (.linear 1 0))⟩

/-- The derivative of the cube of an input, at the second iteration. -/
theorem replay_cube : ∃ us a', ((⟨#[.input, .powi 0 3], 1, [1]⟩ : Tape ℚ).gradient
      [.node ⟨1, 2⟩] [Value.const 1] : Recording ℚ (List (Value ℚ))).run.run (some reading) =
        (.ok us, some a') ∧ EvaluateTo [[2, 5]] 1 us [75] a' := by
  have wf : (⟨#[.input, .powi 0 3], 1, [1]⟩ : Tape ℚ).WellFormed := of_decide_eq_true rfl
  have hx : EvaluateTo [[2, 5]] 1 [.node ⟨1, 2⟩] [5] reading := .cons rfl .nil
  have hω : EvaluateTo [[2, 5]] 1 [.const 1] [1] reading := .cons rfl .nil
  have cube : ((⟨#[.input, .powi 0 3], 1, [1]⟩ : Tape ℚ).gradient [5] [1] :
      Except Failure (List ℚ)) = .ok [75] := by decide +kernel
  have exponents : (⟨#[.input, .powi 0 3], 1, [1]⟩ : Tape ℚ).Exponents (Exponent.Lowers 1) :=
    by decide +kernel
  obtain ⟨-, ⟨r, a', run, -, same⟩, -⟩ := body_reading.replay wf hx hω
  cases r with
  | error e =>
      rcases same with fails | ⟨low, -⟩
      · cases cube.symm.trans fails
      · exact absurd exponents low
  | ok us =>
      obtain ⟨y, gradient, evaluates⟩ := same
      cases cube.symm.trans gradient
      exact ⟨us, a', run, evaluates⟩

end Arena

end LoopDiff
