import LoopDiff.Proofs.Graph.Writes

/-!
# LoopDiff.Proofs.Graph.Execution

Evaluation of a whole graph.

A loop result that has writes executes them (`ends_logged`), a loop runs to
what it accumulates (`ends_runLoop`), and a node outside of loops evaluates
to its number.  A graph whose outputs have numbers therefore evaluates to
these numbers, and does not fail (`Arena.evaluate_eq`).

None of this asks how a graph was recorded.  What is left to show of a
recording is that its outputs have numbers, and which ones.
-/

namespace LoopDiff

variable {F : Type}

theorem toOption_eq_some_iff {α : Type} {c : Except Failure α} {x : α} :
    c.toOption = some x ↔ c = .ok x := by
  cases c with
  | ok y => simp [Except.toOption]
  | error e => simp [Except.toOption]

theorem filterM_eq_ok {α : Type} {f : α → Except Failure Bool} {g : α → Bool} {xs : List α}
    (h : ∀ x ∈ xs, f x = .ok (g x)) : xs.filterM f = .ok (xs.filter g) := by
  have aux (acc : List α) : xs.filterAuxM f acc = .ok ((xs.filter g).reverse ++ acc) := by
    induction xs generalizing acc with
    | nil => rfl
    | cons x xs ih =>
        rw [List.filterAuxM, h x (List.mem_cons_self ..)]
        refine (ih (fun x hx => h x (List.mem_cons_of_mem _ hx)) _).trans ?_
        rw [List.filter_cons]
        cases g x <;> simp
  rw [List.filterM, aux]
  simp

variable [Scalar F]

namespace Problem

variable {p : Problem F} {m : Memory F} {run : NodeRef → Eval F (Accumulator F)}

/-! ## Loop results -/

/-- A write stores or adds its value at its location. -/
theorem ends_logged_write {depth it : Nat} {r : NodeRef} {n : Node F} {w : Write F}
    (hn : p.arena.node r = .ok n) (kind : n.kind = .indexedWrite)
    (hit : m.iteration = some it) (hw : p.write? it n = some w) (sound : p.Sound m) :
    Ends (p.logged (p.value run) (depth + 1) r) m fun ws m' =>
      ws = [w] ∧ p.Sound m' ∧ m'.iteration = m.iteration := by
  simp only [write?, Option.bind_eq_bind, Option.bind_eq_some_iff] at hw
  obtain ⟨v, hv, ⟨x, varies⟩, hx, pattern, hpattern, location, ⟨q, hq, eval⟩, flag, hflag, eq⟩ := hw
  cases eq
  rw [logged]
  refine Eval.ends_lift_bind hn ?_
  simp only [kind]
  refine ends_iterationFor_bind hit ?_
  simp only [hv, present, pure_bind]
  have hat : p.patternAt pattern it = .ok location := by
    rw [patternAt, hq, Option.bind_some, eval]
  -- what remains to be done once the value of the argument is there
  have finish {m' : Memory F} (sound' : p.Sound m') (iteration : m'.iteration = m.iteration) :
      Ends (do
        let location ← p.patternAt (← present n.info[0]?) it
        return [⟨location, (← present n.info[1]?) = 1, x⟩] : Eval F (List (Write F))) m'
        fun ws m'' => ws = [⟨location, decide (flag = 1), x⟩] ∧ p.Sound m'' ∧
          m''.iteration = m.iteration := by
    simp only [hpattern, hflag, present, pure_bind]
    exact Eval.ends_lift_bind hat (ends_pure ⟨rfl, sound', iteration⟩)
  cases v with
  | const z =>
      cases hx
      exact finish sound rfl
  | node a =>
      simp only [value?] at hx
      split at hx
      case isTrue arena =>
          refine (ends_value arena (hit ▸ hx) sound).bind ?_
          rintro _ m' ⟨rfl, sound', iteration⟩
          exact finish sound' iteration
      case isFalse => cases hx

omit [Scalar F] in
theorem ends_chainOf [Scalar F] {r : NodeRef} {chain : Chain} (arena : r.arena = p.arena.id)
    (h : p.collectChain r = .ok chain) (sound : p.Sound m) :
    Ends (p.chainOf r) m fun c m' => c = chain ∧ p.Sound m' ∧ m'.iteration = m.iteration := by
  rw [chainOf]
  refine Eval.ends_get_bind ?_
  split
  case h_1 c found =>
      have eq := sound.chains found
      rw [handle_eq arena, h] at eq
      cases eq
      exact ends_pure ⟨rfl, sound, rfl⟩
  case h_2 =>
      refine Eval.ends_lift_bind h (Eval.ends_modify_bind (ends_pure ⟨rfl, ?_, rfl⟩))
      refine ⟨sound.invariant, sound.varying, sound.loops, fun {i c} hc => ?_⟩
      rw [Std.TreeMap.getElem?_insert] at hc
      split at hc
      case isTrue eq =>
          cases Std.compare_eq_iff_eq.mp eq
          cases hc
          rw [handle_eq arena, h]
      case isFalse => exact sound.chains hc

/-- A loop result executes its writes. -/
theorem ends_logged {depth it : Nat} {r : NodeRef} {ws : List (Write F)}
    (deep : 2 ≤ depth) (hit : m.iteration = some it) (hws : p.writes? it r = some ws)
    (sound : p.Sound m) :
    Ends (p.logged (p.value run) depth r) m fun ws' m' =>
      ws' = ws ∧ p.Sound m' ∧ m'.iteration = some it := by
  obtain ⟨depth, rfl⟩ : ∃ d, depth = d + 2 := ⟨depth - 2, by omega⟩
  obtain ⟨n, hn, hws⟩ := Option.bind_eq_some_iff.mp hws
  rw [toOption_eq_some_iff] at hn
  split at hws
  case h_1 kind =>
      obtain ⟨w, hw, rfl⟩ := Option.map_eq_some_iff.mp hws
      exact hit ▸ ends_logged_write hn kind hit hw sound
  case h_2 kind =>
      simp only [Option.bind_eq_bind, Option.bind_eq_some_iff, toOption_eq_some_iff] at hws
      obtain ⟨chain, hchain, results, htaken, hws⟩ := hws
      rw [mapM_eq_some_iff] at hws
      rw [logged]
      refine Eval.ends_lift_bind hn ?_
      simp only [kind]
      refine (ends_chainOf (Arena.node_eq_ok_iff.mp hn).1 hchain sound).bind ?_
      rintro c m' ⟨rfl, sound', iteration⟩
      refine ends_iterationFor_bind (iteration ▸ hit) (Eval.ends_lift_bind htaken ?_)
      have one : List.Forall₂ (fun result ws => ∀ m'', p.Sound m'' ∧ m''.iteration = some it →
          Ends (do p.logged (p.value run) (depth + 1) (← p.guarded result) :
            Eval F (List (Write F))) m'' fun ws' m₃ => ws' = ws ∧ p.Sound m₃ ∧
              m₃.iteration = some it) results (ws.map fun w => [w]) := by
        refine List.forall₂_map_right_iff.mpr (hws.imp fun result w hguarded m'' h => ?_)
        obtain ⟨sound'', hit'⟩ := h
        simp only [guardedWrite?, Option.bind_eq_bind, Option.bind_eq_some_iff,
          toOption_eq_some_iff] at hguarded
        obtain ⟨s, hs, k, hk, hkind⟩ := hguarded
        split at hkind
        case isTrue write =>
            exact Eval.ends_lift_bind hs (hit' ▸ ends_logged_write hk write hit' hkind sound'')
        case isFalse => cases hkind
      refine (ends_mapM_eq one ⟨sound', iteration.trans hit⟩).bind ?_
      rintro _ m'' ⟨rfl, sound'', hit'⟩
      exact ends_pure ⟨by rw [← List.flatMap_def, List.flatMap_singleton'], sound'', hit'⟩
  case h_3 => cases hws

/-! ## Loops -/

theorem Sound.moveTo (sound : p.Sound m) (it : Option Nat) : p.Sound (m.moveTo it) :=
  ⟨sound.invariant, fun h => by simp [Memory.moveTo] at h, sound.loops, sound.chains⟩

/-- A loop executes the writes of its results, iteration by iteration. -/
theorem ends_loopLog {depth iterations : Nat} {loop start : NodeRef} {n : Node F}
    {ws : List (List (List (Write F)))} (hn : p.arena.node loop = .ok n)
    (first : n.args[0]? = some (.node start)) (count : p.iterations? start = some iterations)
    (hws : ((List.range iterations).mapM fun it =>
      (n.args.tail.filterMap Value.node?).mapM (p.writes? it)) = some ws) (sound : p.Sound m) :
    Ends (p.loopLog depth loop) m fun ws' m' =>
      ws' = ws.map List.flatten ∧ p.Sound m' ∧ m'.iteration = m.iteration := by
  obtain ⟨k, hk, hiterations⟩ := Option.bind_eq_some_iff.mp count
  rw [toOption_eq_some_iff] at hk
  have deep : 2 ≤ p.depth := by
    have := (Array.getElem?_eq_some_iff.mp (Arena.node_eq_ok_iff.mp hn).2).1
    rw [Problem.depth, Arena.size]
    omega
  rw [loopLog]
  refine Eval.ends_lift_bind hn ?_
  simp only [first, present, pure_bind]
  refine Eval.ends_lift_bind hk ?_
  simp only [hiterations, pure_bind]
  refine Eval.ends_get_bind ?_
  rw [mapM_eq_some_iff] at hws
  have each : List.Forall₂ (fun i ws => ∀ m', p.Sound m' → Ends (do
      modify fun m => m.moveTo (some i)
      let ws ← (n.args.tail.filterMap Value.node?).mapM fun r =>
        p.logged (p.value (p.runLoop depth)) p.depth r
      return ws.flatten : Eval F (List (Write F))) m' fun ws' m'' => ws' = ws ∧ p.Sound m'')
      (List.range iterations) (ws.map List.flatten) := by
    refine List.forall₂_map_right_iff.mpr (hws.imp fun i ws hresults m' sound' => ?_)
    refine Eval.ends_modify_bind ?_
    rw [mapM_eq_some_iff] at hresults
    refine Worlds.Ends.bind (ends_mapM_eq (P := fun m => p.Sound m ∧ m.iteration = some i)
      (hresults.imp fun r ws hr m'' h => ends_logged deep h.2 hr h.1)
      ⟨sound'.moveTo (some i), rfl⟩) ?_
    rintro _ m'' ⟨rfl, sound'', -⟩
    exact ends_pure ⟨rfl, sound''⟩
  refine (ends_mapM_eq each sound).bind ?_
  rintro _ m' ⟨rfl, sound'⟩
  exact Eval.ends_modify_bind (ends_pure ⟨rfl, sound'.moveTo _, rfl⟩)

/-- A loop runs to what it accumulates. -/
theorem ends_runLoop {depth : Nat} {loop : NodeRef} {acc : Accumulator F}
    (h : p.accumulator? loop = some acc) (sound : p.Sound m) :
    Ends (p.runLoop (depth + 1) loop) m fun acc' m' =>
      acc' = acc ∧ p.Sound m' ∧ m'.iteration = m.iteration := by
  simp only [accumulator?, Option.bind_eq_bind, Option.bind_eq_some_iff,
    toOption_eq_some_iff] at h
  obtain ⟨n, hn, v, hv, start, hstart, iterations, hiterations, ws, hws, eq⟩ := h
  cases eq
  cases v with
  | const x => cases hstart
  | node s =>
    cases hstart
    rw [runLoop_succ, map_eq_pure_bind]
    refine (ends_loopLog hn hv hiterations hws sound).bind ?_
    rintro _ m' ⟨rfl, sound', iteration⟩
    exact ends_pure ⟨by rw [← List.flatten_flatten], sound', iteration⟩

/-- Computations that run loops. -/
def Runs (p : Problem F) (run : NodeRef → Eval F (Accumulator F)) : Prop :=
  ∀ {loop : NodeRef} {acc : Accumulator F} {m : Memory F}, p.accumulator? loop = some acc →
    p.Sound m → Ends (run loop) m fun acc' m' =>
      acc' = acc ∧ p.Sound m' ∧ m'.iteration = m.iteration

theorem ends_locationValue (runs : p.Runs run) {loop : NodeRef} {location : Nat}
    {acc : Accumulator F} (arena : loop.arena = p.arena.id)
    (h : p.accumulator? loop = some acc) (sound : p.Sound m) :
    Ends (locationValue run loop location) m fun x m' =>
      x = acc.getD location Scalar.zero ∧ p.Sound m' ∧ m'.iteration = m.iteration := by
  rw [locationValue]
  refine Eval.ends_get_bind ?_
  split
  case h_1 acc' found =>
      have eq := sound.loops found
      rw [handle_eq arena, h] at eq
      cases eq
      exact ends_pure ⟨rfl, sound, rfl⟩
  case h_2 =>
      refine (runs h sound).bind ?_
      rintro _ m' ⟨rfl, sound', iteration⟩
      refine Eval.ends_modify_bind (ends_pure ⟨rfl, ?_, iteration⟩)
      refine ⟨sound'.invariant, sound'.varying, fun {i acc} hacc => ?_, sound'.chains⟩
      rw [Std.TreeMap.getElem?_insert] at hacc
      split at hacc
      case isTrue eq =>
          cases Std.compare_eq_iff_eq.mp eq
          cases hacc
          rw [handle_eq arena, h]
      case isFalse => exact sound'.loops hacc

/-! ## Accumulations -/

/-- Whether a handle names an end of a loop. -/
def isLoopEnd (p : Problem F) (r : NodeRef) : Bool :=
  (p.arena.nodes[r.index]?).any fun n => n.kind = .loopEnd

/-- What is known of an argument of an accumulation that is not a loop. -/
theorem summand?_eq_some_iff {i location : Nat} {r : NodeRef} {x : F} :
    p.summand? i location (.node r) = some x ↔ ∃ n, p.arena.node r = .ok n ∧
      if n.kind = .loopEnd then ∃ acc, p.accumulator? r = some acc ∧
        acc.getD location Scalar.zero = x
      else r.index < i ∧ p.known? none r.index = some (x, false) := by
  simp only [summand?, Option.bind_eq_bind, Option.bind_eq_some_iff, toOption_eq_some_iff]
  refine exists_congr fun n => and_congr_right fun hn => ?_
  split
  case isTrue => exact Option.map_eq_some_iff
  case isFalse =>
      rw [Option.ite_none_right_eq_some, value?, if_pos (Arena.node_eq_ok_iff.mp hn).1,
        Option.map_eq_some_iff]
      refine and_congr_right fun _ => ⟨?_, fun h => ⟨_, h, rfl⟩⟩
      rintro ⟨⟨x, varies⟩, h, rfl⟩
      cases varies_of_outside h
      exact h

/-- The operands of an accumulation are its arguments that are not loops. -/
theorem operands_accumulate {i location : Nat} {n : Node F} {xs : List F}
    (kind : n.kind = .accumulate)
    (hxs : List.Forall₂ (fun v x => p.summand? i location v = some x) n.args xs) :
    p.operands n = .ok ((n.args.filterMap Value.node?).filter fun r => !p.isLoopEnd r) := by
  simp only [operands, kind]
  refine filterM_eq_ok fun r hr => ?_
  obtain ⟨k, lt, hk⟩ := List.mem_iff_getElem.mp (Value.mem_nodes.mp hr)
  obtain ⟨x, -, hx⟩ := exists_right_of_forall₂ hxs (List.getElem?_eq_getElem lt)
  rw [hk, summand?_eq_some_iff] at hx
  obtain ⟨k, hk, -⟩ := hx
  rw [hk, isLoopEnd, (Arena.node_eq_ok_iff.mp hk).2]
  simp only [Option.any_some]
  change Except.ok _ = _
  rw [bne]
  congr 2

/-- The sum of an accumulation whose operands have been visited. -/
theorem ends_nodeValue_accumulate (runs : p.Runs run) {marks : Marks F} {r : NodeRef} {n : Node F}
    {x : F} (kind : n.kind = .accumulate) (hx : p.sum? r.index n = some x) (sound : p.Sound m)
    (hmarks : p.SoundMarks m.iteration marks)
    (alldone : ∀ a, .node a ∈ n.args → p.isLoopEnd a = false →
      ∃ z : F × Bool, marks[a.index]? = some (.done z.1 z.2)) :
    Ends (p.nodeValue run marks r n) m fun z m' =>
      z = (x, false) ∧ p.Sound m' ∧ m'.iteration = m.iteration := by
  simp only [sum?, Option.bind_eq_bind, Option.bind_eq_some_iff, mapM_eq_some_iff] at hx
  obtain ⟨location, hlocation, xs, hxs, eq⟩ := hx
  cases eq
  simp only [nodeValue, kind, hlocation, present, pure_bind]
  refine Worlds.Ends.bind (ends_foldlM (fun done sum m' => p.Sound m' ∧
    m'.iteration = m.iteration ∧
    sum = (xs.take done.length).foldl (fun sum x => Scalar.binary .add sum x) Scalar.zero)
    ⟨sound, rfl, rfl⟩ ?_) ?_
  · rintro done v rest sum m' split ⟨sound', iteration, rfl⟩
    have at_ : n.args[done.length]? = some v := by simp [split]
    obtain ⟨y, hy, hv⟩ := exists_right_of_forall₂ hxs at_
    have mem : v ∈ n.args := List.mem_of_getElem? at_
    have next : Scalar.binary .add
        ((xs.take done.length).foldl (fun sum x => Scalar.binary .add sum x) Scalar.zero) y =
        (xs.take (done ++ [v]).length).foldl (fun sum x => Scalar.binary .add sum x)
          Scalar.zero := by
      rw [List.length_append, List.length_singleton, List.take_add_one, hy, List.foldl_append]
      rfl
    cases v with
    | const z =>
        cases hv
        exact ends_pure ⟨sound', iteration, next⟩
    | node a =>
        obtain ⟨k, hk, hv⟩ := summand?_eq_some_iff.mp hv
        refine Eval.ends_lift_bind hk ?_
        by_cases loop : k.kind = .loopEnd
        · rw [if_pos loop] at hv
          obtain ⟨acc, hacc, rfl⟩ := hv
          simp only [loop, if_true]
          refine (ends_locationValue runs (Arena.node_eq_ok_iff.mp hk).1 hacc sound').bind ?_
          rintro _ m'' ⟨rfl, sound'', iteration'⟩
          exact ends_pure ⟨sound'', iteration'.trans iteration, next⟩
        · rw [if_neg loop] at hv
          simp only [loop, if_false]
          have value : p.isLoopEnd a = false := by
            rw [isLoopEnd, (Arena.node_eq_ok_iff.mp hk).2]
            simpa using loop
          obtain ⟨⟨z, varies⟩, marked⟩ := alldone a mem value
          cases hmarks.done_eq marked
            (current?_of_known? (known?_of_invariant hv.2 m.iteration))
          refine Eval.ends_lift_bind (x := (z, false)) ?_ (ends_pure ⟨sound', iteration, next⟩)
          simp only [operand, marked]
  · rintro sum m' ⟨sound', iteration, rfl⟩
    refine ends_pure ⟨?_, sound', iteration⟩
    rw [hxs.length_eq, List.take_length]

/-! ## Outputs -/

/-- A visit of a node that has a number outside of loops, other than a
synonym. -/
theorem ends_visit_proper (runs : p.Runs run) {depth : Nat} {r : NodeRef} {marks : Marks F}
    {x : F} (arena : r.arena = p.arena.id) (hx : p.proper? r.index = some x)
    (hy : p.current? m.iteration r.index = some (x, false)) (deep : r.index < depth)
    (sound : p.Sound m) (hmarks : p.SoundMarks m.iteration marks)
    (later : ∀ i, marks[i]? = some .opened → r.index < i) :
    Ends (p.visit run depth r marks) m (p.VisitEnds m marks r.index) := by
  obtain ⟨n, hn, hx⟩ := Option.bind_eq_some_iff.mp hx
  split at hx
  case isFalse =>
      obtain ⟨⟨x, varies⟩, known, rfl⟩ := Option.map_eq_some_iff.mp hx
      obtain rfl := varies_of_outside known
      exact ends_visit arena (known?_of_invariant known _) deep sound hmarks later
  case isTrue kind =>
      obtain ⟨depth, rfl⟩ : ∃ d, depth = d + 1 := ⟨depth - 1, by omega⟩
      have hsum := hx
      simp only [sum?, Option.bind_eq_bind, Option.bind_eq_some_iff, mapM_eq_some_iff] at hsum
      obtain ⟨location, -, xs, hxs, -⟩ := hsum
      have operand {a : NodeRef} (ha : .node a ∈ n.args) (value : p.isLoopEnd a = false) :
          a.arena = p.arena.id ∧ a.index < r.index ∧
            ∃ z, p.known? none a.index = some (z, false) := by
        obtain ⟨k, lt, hk⟩ := List.mem_iff_getElem.mp ha
        obtain ⟨z, -, hz⟩ := exists_right_of_forall₂ hxs (List.getElem?_eq_getElem lt)
        rw [hk] at hz
        obtain ⟨k, hk, hz⟩ := summand?_eq_some_iff.mp hz
        obtain ⟨arena', hk⟩ := Arena.node_eq_ok_iff.mp hk
        have notLoop : ¬k.kind = .loopEnd := by simpa [isLoopEnd, hk] using value
        rw [if_neg notLoop] at hz
        exact ⟨arena', hz.1, z, hz.2⟩
      have child {a : NodeRef} (ha : a ∈ (n.args.filterMap Value.node?).filter fun r =>
          !p.isLoopEnd r) : .node a ∈ n.args ∧ p.isLoopEnd a = false := by
        obtain ⟨ha, value⟩ := List.mem_filter.mp ha
        exact ⟨Value.mem_nodes.mp ha, by simpa using value⟩
      refine ends_visit_succ arena hn hy (operands_accumulate kind hxs) sound hmarks later
        (fun a ha => (operand (child ha).1 (child ha).2).2.1) ?_ ?_
      · intro a ha marks' m' sound' iteration hmarks' later'
        obtain ⟨arena', lt, z, hz⟩ := operand (child ha).1 (child ha).2
        exact ends_visit arena' (known?_of_invariant hz _) (by omega) sound' hmarks' later'
      · intro marks' m' sound' iteration hmarks' alldone
        rw [← iteration]
        refine ends_nodeValue_accumulate runs kind hx sound' hmarks' fun a ha value => ?_
        refine alldone a (List.mem_filter.mpr ⟨Value.mem_nodes.mpr ha, ?_⟩)
        rw [value, Bool.not_false]

/-- A visit of a node that has a number outside of loops. -/
theorem ends_visit_fixed (runs : p.Runs run) {r : NodeRef} {x : F}
    (arena : r.arena = p.arena.id) (hx : p.fixed? r.index = some x) (sound : p.Sound m) :
    Ends (p.visit run p.depth r ∅) m (p.VisitEnds m ∅ r.index) := by
  have hy := current?_of_fixed? hx m.iteration
  have hmarks : p.SoundMarks m.iteration ∅ := fun i x varies h => by cases h
  have later : ∀ i, (∅ : Marks F)[i]? = some .opened → r.index < i := fun i h => by cases h
  obtain ⟨n, hn, hx⟩ := Option.bind_eq_some_iff.mp hx
  have lt : r.index < p.arena.size := (Array.getElem?_eq_some_iff.mp hn).1
  split at hx
  case h_2 =>
      exact ends_visit_proper runs arena hx hy (Nat.lt_succ_of_lt lt) sound hmarks later
  case h_1 s kind args =>
      rw [Option.ite_none_right_eq_some] at hx
      obtain ⟨⟨arena', before⟩, hx⟩ := hx
      have hs : p.fixed? s.index = some x := by
        obtain ⟨k, hk, hproper⟩ := Option.bind_eq_some_iff.mp hx
        rw [fixed?, hk, Option.bind_eq_bind, Option.bind_some]
        split
        case h_2 => exact hx
        case h_1 synonym _ =>
            -- a synonym has no number of its own
            simp only [synonym, reduceCtorEq, if_false] at hproper
            obtain ⟨y, hy, -⟩ := Option.map_eq_some_iff.mp hproper
            obtain ⟨k', hk', low⟩ := tier_of_known? hy
            rw [hk] at hk'
            cases hk'
            simp [synonym, Kind.tier] at low
      have operands : p.operands n = .ok [s] := by
        simp only [Problem.operands, kind, args]
        rfl
      refine ends_visit_succ arena hn hy operands sound hmarks later ?_ ?_ ?_
      · intro a ha
        rwa [List.mem_singleton.mp ha]
      · intro a ha marks' m' sound' iteration hmarks' later'
        rw [List.mem_singleton.mp ha] at later' ⊢
        exact ends_visit_proper runs arena' hx (current?_of_fixed? hs _) (by omega) sound'
          hmarks' later'
      · intro marks' m' sound' iteration hmarks' alldone
        obtain ⟨⟨z, varies⟩, marked⟩ := alldone s (List.mem_singleton.mpr rfl)
        cases hmarks'.done_eq marked (current?_of_fixed? hs _)
        simp only [nodeValue, kind, args, present, List.getElem?_cons_zero, pure_bind]
        refine Eval.ends_lift ?_ ⟨rfl, sound', iteration⟩
        simp only [operand, marked]

theorem runs_runLoop : p.Runs (p.runLoop p.depth) :=
  fun h sound => ends_runLoop h sound

/-- The value of an output. -/
theorem ends_output {v : Value F} {x : F} (h : p.output? v = some x) (sound : p.Sound m) :
    Ends (p.output v) m fun y m' => y = x ∧ p.Sound m' := by
  cases v with
  | const y =>
      cases h
      exact ends_pure ⟨rfl, sound⟩
  | node r =>
      rw [output?, Option.ite_none_right_eq_some] at h
      exact (ends_value_of_visit (current?_of_fixed? h.2 _) sound
        (ends_visit_fixed runs_runLoop h.1 h.2 sound)).mono fun y m' hy => ⟨hy.1, hy.2.1⟩

end Problem

/-- A graph whose outputs have numbers evaluates to these numbers. -/
theorem Arena.evaluate_eq {a : Arena F} {outputs : List (Value F)} {inputs : List (List F)}
    {xs : List F} (h : List.Forall₂ (fun v x =>
      Problem.output? ⟨a, inputs.map List.toArray⟩ v = some x) outputs xs) :
    a.evaluate outputs inputs = .ok xs := by
  have sound : Problem.Sound ⟨a, inputs.map List.toArray⟩ (Memory.empty (F := F)) :=
    ⟨fun h => by simp [Memory.empty] at h, fun h => by simp [Memory.empty] at h,
      fun h => by simp [Memory.empty] at h, fun h => by simp [Memory.empty] at h⟩
  have run {m : Memory F} (sound : Problem.Sound ⟨a, inputs.map List.toArray⟩ m) :
      Ends (outputs.mapM (Problem.output ⟨a, inputs.map List.toArray⟩)) m fun ys _ => ys = xs := by
    induction h generalizing m with
    | nil => exact ends_pure rfl
    | cons hv _ ih =>
        rw [List.mapM_cons]
        refine (Problem.ends_output hv sound).bind ?_
        rintro _ m' ⟨rfl, sound'⟩
        exact (ih sound').bind fun ys m'' eq => ends_pure (eq ▸ rfl)
  obtain ⟨ys, m, hrun, rfl⟩ := run sound
  rw [evaluate, StateT.run'_eq, hrun]
  rfl

end LoopDiff
