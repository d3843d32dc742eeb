import LoopDiff.Proofs.Graph.Interning
import LoopDiff.Proofs.Graph.Order
import LoopDiff.Proofs.Loop.Conditional

/-!
# LoopDiff.Proofs.Graph.Termination

Evaluations end, and do not go astray.

A loop runs the nodes among its results, a conditional goes on to the writes of
the branch that is taken, and both are behind the node that asks for them
(`transGen_of_collectChain`, `onCourse_execute`).  So the depth that a run of a
loop is given is enough (`runsBelow_runLoop`), and since every arena that can be
built is grounded, no evaluation goes astray (`Arena.Reached.evaluation_ends`).

What the outputs give is remembered together (`Arena.Grounded.exists_ordered`).
-/

namespace LoopDiff

open Std Relation

variable {F : Type}

namespace Problem

variable {p : Problem F} {P : Nat → Prop} {m m' : Memory F}

/-- A value that is remembered to the end, or a number. -/
def Lasts (m : Memory F) (v : Value F) (x : F) : Prop :=
  match v with
  | .const y => x = y
  | .node r => m.invariant[r.index]? = some x

theorem Lasts.grows {v : Value F} {x : F} (h : Lasts m v x) (grows : p.Grows P m m') :
    Lasts m' v x := by
  cases v with
  | const y => exact h
  | node r => exact grows.stays h

/-! ## Loop results -/

theorem onCourse_explore {next : Nat → Except Failure (List Nat)} (hnext : ∀ i, OnCourse (next i))
    (seen : Array Bool) (stack : List Nat) : OnCourse (explore next seen stack) := by
  induction seen, stack using explore.induct next with
  | case1 seen stack done =>
      rw [explore_nil done]
      exact onCourse_ok seen
  | case2 seen stack i rest top inside e fails =>
      rw [explore_cons top inside, fails]
      exact onCourse_error (hnext i e fails)
  | case3 seen stack i rest top inside more succeeds ih =>
      rw [explore_cons top inside, succeeds]
      exact ih
  | case4 seen stack i rest top outside =>
      rw [explore_outside top outside]
      exact onCourse_error (by rintro ⟨⟩)

theorem onCourse_earlierResults (i : Nat) : OnCourse (p.earlierResults i) := by
  rw [earlierResults]
  refine (onCourse_present _).bind fun n => ?_
  split
  case isTrue => exact onCourse_error (by rintro ⟨⟩)
  case isFalse =>
      refine (onCourse_present _).bind fun v => ?_
      cases v with
      | const x => exact onCourse_error (by rintro ⟨⟩)
      | node branch =>
          refine (p.arena.onCourse_node branch).bind fun b => ?_
          refine (onCourse_filterM (fun r => ?_) _).bind fun _ => onCourse_ok _
          exact (p.arena.onCourse_node r).bind fun _ => onCourse_ok _

theorem onCourse_collectChain (endIf : NodeRef) : OnCourse (p.collectChain endIf) := by
  rw [collectChain]
  refine (p.arena.onCourse_node endIf).bind fun n => ?_
  exact (onCourse_explore onCourse_earlierResults _ _).bind fun _ => onCourse_ok _

/-- The results that a branch was given are behind the results of the branch. -/
theorem transGen_of_earlierResults {i j : Nat} {l : List Nat} (h : p.earlierResults i = .ok l)
    (hj : j ∈ l) : TransGen p.arena.Edge i j := by
  rw [earlierResults] at h
  obtain ⟨n, hn, h⟩ := bind_eq_ok h
  replace hn := eq_some_of_present hn
  split at h
  case isTrue => cases h
  case isFalse =>
      obtain ⟨v, hv, h⟩ := bind_eq_ok h
      replace hv := List.mem_of_getElem? (eq_some_of_present hv)
      cases v with
      | const x => cases h
      | node branch =>
          obtain ⟨b, hb, h⟩ := bind_eq_ok h
          obtain ⟨results, hresults, h⟩ := bind_eq_ok h
          cases h
          obtain ⟨s, hs, rfl⟩ := List.mem_map.mp hj
          have arg := Value.mem_nodes.mp ((mem_filterM hresults s).mp hs).1
          exact .tail (.single ⟨n, hn, Arena.mem_argIndices.mpr ⟨branch, hv, rfl⟩⟩)
            (Arena.edge_of_mem hb arg)

/-- The results in a chain are behind the end of its conditionals. -/
theorem transGen_of_collectChain {endIf : NodeRef} {chain : Chain}
    (h : p.collectChain endIf = .ok chain) :
    ∀ link ∈ chain, ∀ s ∈ link.2, TransGen p.arena.Edge endIf.index s.index := by
  rw [collectChain] at h
  obtain ⟨n, hn, h⟩ := bind_eq_ok h
  obtain ⟨seen, search, h⟩ := bind_eq_ok h
  cases h
  intro link hlink s hs
  obtain ⟨⟨b, results⟩, listed, rfl⟩ := List.mem_map.mp hlink
  -- the results of a branch are among those that were found
  have bucket : ((List.filter (fun i => seen.getD i false) (List.range p.arena.size)).foldl
      p.sortResult ∅)[b]? = some results := TreeMap.mem_toList_iff_getElem?_eq_some.mp listed
  have sorted := (getD_sortResults (p := p)
    ((List.range p.arena.size).filter fun i => seen.getD i false) ∅ b).1
  rw [TreeMap.getD_eq_getD_getElem?, bucket] at sorted
  simp only [Option.getD_some, TreeMap.getD_emptyc, List.nil_append] at sorted
  subst sorted
  obtain ⟨i, hi, rfl⟩ := List.mem_map.mp hs
  have marked := (List.mem_filter.mp (List.mem_filter.mp hi).1).2
  have start (j : Nat) (hj : j ∈ n.argIndices.reverse) : TransGen p.arena.Edge endIf.index j :=
    .single ⟨n, (Arena.node_eq_ok_iff.mp hn).2, List.mem_reverse.mp hj⟩
  have explored := (searchRun_of_explore search).explored
    (fun _ _ path hl _ hk => path.trans (transGen_of_earlierResults hl hk)) start
  refine (explored.inside marked).resolve_left fun blank => ?_
  cases (getD_replicate ..).symm.trans blank

theorem onCourse_chainOf (endIf : NodeRef) (ordered : p.Ordered m) :
    Eval.OnCourse (p.chainOf endIf) m fun chain m' => p.Leaves (p.arena.Path endIf.index) m m' ∧
      ∀ link ∈ chain, ∀ s ∈ link.2, TransGen p.arena.Edge endIf.index s.index := by
  refine Eval.onCourse_get_bind ?_
  split
  case h_1 chain found =>
      exact Eval.onCourse_pure ⟨ordered.leaves, ordered.chains found⟩
  case h_2 =>
      refine Eval.onCourse_lift_bind (onCourse_collectChain endIf) fun chain hchain => ?_
      have behind := transGen_of_collectChain hchain
      refine Eval.onCourse_modify_bind (Eval.onCourse_pure ⟨⟨⟨⟨?_, ordered.outside,
        ordered.synonym⟩, id, .inl⟩, rfl⟩, behind⟩)
      intro k chain' hk
      rw [TreeMap.getElem?_insert] at hk
      split at hk
      case isTrue eq =>
          cases Nat.compare_eq_eq.mp eq
          cases hk
          exact behind
      case isFalse => exact ordered.chains hk

theorem onCourse_holds (branch : NodeRef) (iteration : Nat) : OnCourse (p.holds branch iteration) := by
  refine (p.arena.onCourse_node branch).bind fun n => ?_
  have given (v? : Option (Value F)) : OnCourse (do
      match ← present v? with
      | .const _ => refuse (.invalidGraph .branchWithoutCondition)
      | .node r => do return inRanges (← p.arena.node r).info iteration : Except Failure Bool) := by
    refine (onCourse_present v?).bind fun v => ?_
    cases v with
    | const x => exact onCourse_error nofun
    | node r => exact (p.arena.onCourse_node r).bind fun _ => onCourse_ok _
  dsimp only
  split
  case h_1 => exact given n.args[0]?
  case h_2 => exact given n.args[1]?
  case h_3 => exact onCourse_ok true
  case h_4 => exact onCourse_error nofun

theorem onCourse_taken (iteration : Nat) (chain : Chain) : OnCourse (p.taken iteration chain) := by
  induction chain with
  | nil => exact onCourse_ok []
  | cons link rest ih =>
      refine (onCourse_holds link.1 iteration).bind fun b => ?_
      cases b with
      | true => exact onCourse_ok _
      | false => exact ih

/-- What is taken is one of the links of a chain. -/
theorem exists_of_taken {iteration : Nat} {chain : Chain} {results : List NodeRef}
    (h : p.taken iteration chain = .ok results) {s : NodeRef} (hs : s ∈ results) :
    ∃ link ∈ chain, s ∈ link.2 := by
  induction chain with
  | nil =>
      cases h
      cases hs
  | cons link rest ih =>
      obtain ⟨b, -, h⟩ := bind_eq_ok h
      cases b with
      | true =>
          cases h
          exact ⟨link, List.mem_cons_self .., hs⟩
      | false =>
          obtain ⟨link', mem, hs⟩ := ih h
          exact ⟨link', List.mem_cons_of_mem _ mem, hs⟩

theorem onCourse_guarded (result : NodeRef) : OnCourse (p.guarded result) := by
  refine (p.arena.onCourse_node result).bind fun n => (onCourse_present _).bind fun v => ?_
  cases v with
  | const x => exact onCourse_error nofun
  | node r => exact onCourse_ok r

theorem edge_of_guarded {result s : NodeRef} (h : p.guarded result = .ok s) :
    p.arena.Edge result.index s.index := by
  obtain ⟨n, hn, h⟩ := bind_eq_ok h
  obtain ⟨v, hv, h⟩ := bind_eq_ok h
  cases v with
  | const x => cases h
  | node r =>
      cases h
      exact Arena.edge_of_getElem? hn (eq_some_of_present hv)

/-! ## Loops -/

/-- The iterations of a loop keep what each of them keeps. -/
theorem onCourse_iterate {body : Nat → Accumulator F → Eval F (Accumulator F)}
    {I : Memory F → Prop} (hbody : ∀ i acc m, I m → Eval.OnCourse (body i acc) m fun _ => I)
    (count i : Nat) (acc : Accumulator F) (init : I m) :
    Eval.OnCourse (iterate body count i acc) m fun _ => I := by
  induction count generalizing i acc m with
  | zero => exact Eval.onCourse_pure init
  | succ count ih => exact (hbody i acc m init).bind fun acc' m' h => ih (i + 1) acc' h

variable [Scalar F] {d : Nat}

/-- Values of nodes that depend on at most `d` nodes are read on course. -/
def ReadsUpTo (p : Problem F) (d : Nat) (value : NodeRef → Eval F F) : Prop :=
  ∀ (r : NodeRef) (m : Memory F), p.arena.rank r.index ≤ d → p.Ordered m →
    Eval.OnCourse (value r) m fun _ => p.Leaves (p.arena.Path r.index) m

/-- A loop result executes on course: a conditional goes on to a node behind it. -/
theorem onCourse_execute (grounded : p.arena.Grounded) {value : NodeRef → Eval F F}
    (reads : p.ReadsUpTo d value) {depth : Nat} {r : NodeRef}
    (deep : p.arena.rank r.index < depth) (le : p.arena.rank r.index ≤ d) (ordered : p.Ordered m)
    (acc : Accumulator F) :
    Eval.OnCourse (p.execute value depth r acc) m fun _ => p.Leaves (p.arena.Path r.index) m := by
  induction depth generalizing r m acc with
  | zero => exact absurd deep (Nat.not_lt_zero _)
  | succ depth ih =>
      rw [execute]
      refine Eval.onCourse_lift_bind (p.arena.onCourse_node r) fun n hn => ?_
      split
      case h_1 =>
          refine onCourse_iterationFor_bind fun i _ => Eval.onCourse_present_bind fun v hv => ?_
          -- what is left to do once the value is there
          have write (x : F) {m' : Memory F} (leaves : p.Leaves (p.arena.Path r.index) m m') :
              Eval.OnCourse (do
                let location ← p.patternAt (← present n.info[0]?) i
                if (← present n.info[1]?) = 1 then
                  return acc.insert location (Scalar.binary .add (acc.getD location Scalar.zero) x)
                else
                  return acc.insert location x) m' fun _ => p.Leaves (p.arena.Path r.index) m := by
            refine Eval.onCourse_present_bind fun pattern _ => ?_
            refine Eval.onCourse_lift_bind (onCourse_patternAt pattern i) fun location _ => ?_
            refine Eval.onCourse_present_bind fun flag _ => ?_
            split <;> exact Eval.onCourse_pure leaves
          cases v with
          | const x => exact write x ordered.leaves
          | node a =>
              have edge := Arena.edge_of_getElem? hn hv
              have less := (grounded.rank_lt_of_edge edge).le.trans le
              refine (reads a m less ordered).bind fun x m' leaves => ?_
              exact write x (leaves.mono fun i path => .head edge path)
      case h_2 =>
          refine (onCourse_chainOf r ordered).bind fun chain m' known => ?_
          obtain ⟨leaves, behind⟩ := known
          refine onCourse_iterationFor_bind fun i _ => ?_
          refine Eval.onCourse_lift_bind (onCourse_taken i chain) fun results htaken => ?_
          refine Eval.onCourse_foldlM_of_mem leaves fun s hs acc m'' leaves => ?_
          refine Eval.onCourse_lift_bind (onCourse_guarded s) fun w hw => ?_
          obtain ⟨link, mem, hs⟩ := exists_of_taken htaken hs
          have path := (behind link mem s hs).tail (edge_of_guarded hw)
          have less := grounded.rank_lt path
          refine (ih (by omega) (by omega) leaves.ordered acc).mono fun acc' m₃ leaves' => ?_
          exact leaves.trans (leaves'.mono fun j below => path.to_reflTransGen.trans below)
      case h_3 => exact Eval.onCourse_throw (by rintro ⟨⟩)

/-- A loop runs on course, and so do the loops that it depends on. -/
theorem runsBelow_runLoop (grounded : p.arena.Grounded) (depth : Nat) :
    p.RunsBelow depth (p.runLoop depth) := by
  induction depth with
  | zero => exact fun loop m lt => absurd lt (Nat.not_lt_zero _)
  | succ depth ih =>
      intro loop m lt ordered
      rw [runLoop]
      refine Eval.onCourse_lift_bind (p.arena.onCourse_node loop) fun n hn => ?_
      refine Eval.onCourse_present_bind fun v _ => ?_
      have reads : p.ReadsUpTo depth (p.value (p.runLoop depth)) := fun r m le ordered =>
        (onCourse_value grounded ih le ordered).mono fun _ _ known => known.1
      have body (i : Nat) (acc : Accumulator F) (m' : Memory F)
          (grows : p.Grows (p.arena.Path loop.index) m m') : Eval.OnCourse (do
            modify fun m => m.moveTo (some i)
            (n.args.tail.filterMap Value.node?).foldlM (fun acc r =>
              p.execute (p.value (p.runLoop depth)) p.depth r acc) acc) m' fun _ m'' =>
            p.Grows (p.arena.Path loop.index) m m'' := by
        refine Eval.onCourse_modify_bind ?_
        refine Eval.onCourse_foldlM_of_mem (grows.moveTo (some i)) fun r hr acc m'' grows => ?_
        have edge := Arena.edge_of_mem hn (List.mem_of_mem_tail (Value.mem_nodes.mp hr))
        have less := grounded.rank_lt_of_edge edge
        have deep := Nat.lt_succ_of_le (grounded.rank_le r.index)
        refine (onCourse_execute grounded reads deep (by omega) grows.ordered acc).mono
          fun acc' m₃ leaves => ?_
        exact grows.trans (leaves.grows.mono fun j path => .head edge path)
      cases v with
      | const x =>
          refine Eval.OnCourse.bind (P := fun _ _ => False) ?_ fun _ _ => False.elim
          exact Eval.onCourse_throw (by rintro ⟨⟩)
      | node start =>
          simp only [pure_bind]
          refine Eval.onCourse_lift_bind (p.arena.onCourse_node start) fun s _ => ?_
          refine Eval.onCourse_present_bind fun iterations _ => Eval.onCourse_get_bind ?_
          refine (onCourse_iterate body iterations 0 ∅ ordered.grows).bind fun acc m' grows => ?_
          exact Eval.onCourse_modify_bind (Eval.onCourse_pure ⟨grows.moveTo m.iteration, rfl⟩)

/-! ## Outputs -/

theorem onCourse_output (grounded : p.arena.Grounded) (v : Value F) (ordered : p.Ordered m)
    (out : m.iteration = none) :
    Eval.OnCourse (p.output v) m fun x m' => p.Leaves (fun _ => True) m m' ∧ Lasts m' v x := by
  cases v with
  | const x => exact Eval.onCourse_pure ⟨ordered.leaves, rfl⟩
  | node r =>
      have le := (grounded.rank_le r.index).trans (Nat.le_succ _)
      refine (onCourse_value grounded (runsBelow_runLoop grounded p.depth) le ordered).mono ?_
      exact fun x m' known => ⟨known.1.mono fun _ _ => trivial, known.2 out⟩

/-- Outputs are evaluated on course, one after another, and their values last. -/
theorem onCourse_outputs (grounded : p.arena.Grounded) (vs : List (Value F))
    (ordered : p.Ordered m) (out : m.iteration = none) :
    Eval.OnCourse (vs.mapM p.output) m fun xs m' =>
      p.Leaves (fun _ => True) m m' ∧ List.Forall₂ (Lasts m') vs xs := by
  induction vs generalizing m with
  | nil => exact Eval.onCourse_pure ⟨ordered.leaves, .nil⟩
  | cons v vs ih =>
      rw [List.mapM_cons]
      refine (onCourse_output grounded v ordered out).bind fun x m' ⟨leaves, last⟩ => ?_
      refine (ih leaves.ordered (leaves.iteration.trans out)).bind fun xs m'' ⟨leaves', lasts⟩ => ?_
      exact Eval.onCourse_pure ⟨leaves.trans leaves', .cons (last.grows leaves'.grows) lasts⟩

end Problem

namespace Arena

variable [Scalar F] {a : Arena F}

/-- An evaluation of a grounded graph does not go astray. -/
theorem Grounded.not_astray (grounded : a.Grounded) (outputs : List (Value F))
    (inputs : List (List F)) : OnCourse (a.evaluate outputs inputs) := by
  have course := Problem.onCourse_outputs (p := ⟨a, inputs.map List.toArray⟩) grounded outputs
    Problem.ordered_empty rfl
  intro e fails
  rw [evaluate, StateT.run'_eq] at fails
  rw [Eval.OnCourse] at course
  split at course
  case h_1 run =>
      rw [run] at fails
      cases fails
  case h_2 e' run =>
      rw [run] at fails
      cases fails
      exact course

/-- What the outputs of a grounded graph give is remembered together: a value for
each node, which is that of its source if the node is a synonym. -/
theorem Grounded.exists_ordered (grounded : a.Grounded) {outputs : List (Value F)}
    {inputs : List (List F)} {xs : List F} (h : a.evaluate outputs inputs = .ok xs) :
    ∃ m, Problem.Ordered ⟨a, inputs.map List.toArray⟩ m ∧
      List.Forall₂ (Problem.Lasts m) outputs xs := by
  have course := Problem.onCourse_outputs (p := ⟨a, inputs.map List.toArray⟩) grounded outputs
    Problem.ordered_empty rfl
  obtain ⟨m, run⟩ := evaluate_eq_ok_iff.mp h
  rw [Eval.OnCourse, run] at course
  exact ⟨m, course.1.ordered, course.2⟩

/-- Calls are operations. -/
theorem reached_after (id : Nat) (calls : List (Call F)) : ((empty id).after calls).Reached := by
  have operates (a : Arena F) : Relation.ReflTransGen Operates a (a.after calls) := by
    induction calls generalizing a with
    | nil => exact .refl
    | cons c calls ih => exact .head (.call a c) (ih _)
  exact ⟨id, operates (empty id)⟩

theorem Reached.grounded (h : a.Reached) : a.Grounded := by
  obtain ⟨id, calls, rfl⟩ := h.exists_calls
  exact (steps_after _ calls).grounded (grounded_empty id)

/-- The evaluation of an arena that any operations led to ends, whatever it is asked
for on whatever inputs: no recursion is cut off, no node is met that depends on
itself, every operand is there when its node is computed, and so is every output. -/
theorem Reached.evaluation_ends (h : a.Reached) (outputs : List (Value F))
    (inputs : List (List F)) (r : NodeRef) (i j : Nat) :
    a.evaluate outputs inputs ≠ .error (Problem.endless r) ∧
    a.evaluate outputs inputs ≠ .error (.error (.invalidGraph (.dependsOnItself i))) ∧
    a.evaluate outputs inputs ≠ .error (.error (.invalidGraph (.operandMissing i j))) ∧
    a.evaluate outputs inputs ≠ .error (.error (.invalidGraph (.notEvaluated i))) := by
  have course := h.grounded.not_astray outputs inputs
  exact ⟨fun fails => course _ fails (.endless r.index), fun fails => course _ fails (.open i),
    fun fails => course _ fails (.operand i j), fun fails => course _ fails (.root i)⟩

/-- An accumulation that got a loop after it was made.  The loop writes under a
condition, and the accumulation is read by another loop. -/
def nested : List (Call ℚ) :=
  [.addPattern (.constant 0) 3, .newIndependent 0 0, .push .accumulate [.node ⟨0, 0⟩] [0],
    .push .loopStart [] [0, 3], .push .iteration [.node ⟨0, 2⟩] [],
    .push (.op (.binary .mul)) [.node ⟨0, 0⟩, .node ⟨0, 3⟩] [],
    .push .condition [.node ⟨0, 3⟩] [1, 2], .push .startIf [.node ⟨0, 5⟩] [],
    .push .indexedWrite [.node ⟨0, 4⟩, .node ⟨0, 3⟩] [0, 1],
    .push .branchResult [.node ⟨0, 6⟩, .node ⟨0, 7⟩] [], .push .endIf [.node ⟨0, 8⟩] [],
    .push .loopEnd [.node ⟨0, 2⟩, .node ⟨0, 9⟩] [], .append ⟨0, 1⟩ [.node ⟨0, 10⟩],
    .push .loopStart [] [1, 2], .push .iteration [.node ⟨0, 11⟩] [],
    .push .indexedWrite [.node ⟨0, 1⟩, .node ⟨0, 12⟩] [0, 1],
    .push .loopEnd [.node ⟨0, 11⟩, .node ⟨0, 13⟩] [], .push .accumulate [.node ⟨0, 14⟩] [0]]

/-- Both accumulations have their values, in this order too, and without inputs the
evaluation fails for the lack of them. -/
theorem evaluation_ends_nested : ((empty 0).after nested).Reached ∧
    ((empty 0).after nested).evaluate [.node ⟨0, 15⟩, .node ⟨0, 1⟩] [[5]] = .ok [40, 20] ∧
    ((empty 0).after nested).evaluate [.node ⟨0, 15⟩] [] =
      .error (.error (.invalidGraph (.missingInput 0 0))) ∧
    ((empty 0).after nested).evaluate [.node ⟨0, 15⟩] [] ≠ .error (Problem.endless ⟨0, 14⟩) ∧
    ((empty 0).after nested).evaluate [.node ⟨0, 15⟩] [] ≠
      .error (.error (.invalidGraph (.dependsOnItself 1))) ∧
    ((empty 0).after nested).evaluate [.node ⟨0, 15⟩] [] ≠
      .error (.error (.invalidGraph (.operandMissing 1 10))) ∧
    ((empty 0).after nested).evaluate [.node ⟨0, 15⟩] [] ≠
      .error (.error (.invalidGraph (.notEvaluated 1))) := by
  refine ⟨reached_after 0 nested, ?_, ?_, ?_⟩
  · decide +kernel
  · decide +kernel
  · exact (reached_after 0 nested).evaluation_ends [.node ⟨0, 15⟩] [] ⟨0, 14⟩ 1 10

end Arena

end LoopDiff
