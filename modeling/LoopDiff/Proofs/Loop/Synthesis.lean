import LoopDiff.Proofs.Graph.Replay
import LoopDiff.Proofs.Loop.Multiples
import LoopDiff.Proofs.Loop.Recordings

/-!
# LoopDiff.Proofs.Loop.Synthesis

A loop writes what was contributed to it, and nothing else.

A loop is filled by contributions of values that are recorded in between, from
inputs, loop inputs and operations (`LoopScope.Contributed`).  Each
contribution becomes one write, a new conditional, or more results of a
conditional with the same partition.  Whatever mix of them is recorded, at each
iteration the finished loop executes one write for each value that is claimed
there, and no other write; the write adds the number of the value at this
iteration, summed as often as it is claimed (`LoopScope.due`).  This holds for
any arithmetic, since no law is asked of it (`Contributed.delivers`).
-/

namespace LoopDiff

open Std (TreeMap)

variable {F : Type} [Scalar F]

/-- An operator gives what the operation gives. -/
theorem Operation.ends_operator {a : Arena F} {s : Operation (Value F)}
    {Q : Value F → Arena F → Prop} (h : Ends s.record a Q) : Ends s.operator a Q := by
  cases s with
  | binary op v w => exact Recording.ends_binary h
  | unary op v => exact Recording.ends_unary h
  | powi v n => exact Recording.ends_powi h
  | compound op v w => exact Recording.ends_compound h
  | toNode v => exact Recording.ends_reporting h

/-! ## What accumulates -/

/-- What is at a location after writes that add: the numbers that were written
there, added in order. -/
theorem getD_foldl_apply_add {ws : List (Write F)} (add : ∀ w ∈ ws, w.add = true)
    (acc : Accumulator F) (location : Nat) :
    (ws.foldl Write.apply acc).getD location Scalar.zero =
      ((ws.filter fun w => w.location = location).map Write.value).foldl (Scalar.binary .add)
        (acc.getD location Scalar.zero) := by
  induction ws generalizing acc with
  | nil => rfl
  | cons w ws ih =>
      obtain ⟨first, rest⟩ := List.forall_mem_cons.mp add
      rw [List.foldl_cons, ih rest, Write.apply, TreeMap.getD_insert, List.filter_cons, first]
      by_cases here : w.location = location
      · subst here
        simp
      · simp [here]

/-- A run of a loop of `n` iterations executes, at each iteration, the writes
that are due, in some order, and no others.  What is then accumulated at a
location is what was written there, added in the order of the writes. -/
def Problem.Delivers (p : Problem F) (loop : NodeRef) (n : Nat) (due : Nat → List (Write F)) :
    Prop :=
  ∀ (m : Memory F) (depth : Nat), p.Sound m → ∃ log acc m',
    (p.loopLog depth loop).run m = .ok (log, m') ∧
    (p.runLoop (depth + 1) loop).run m = .ok (acc, m') ∧
    List.Forall₂ (fun it (ws : List (Write F)) => ws.Perm (due it)) (List.range n) log ∧
    ∀ location, acc.getD location Scalar.zero =
      ((log.flatten.filter fun w => w.location = location).map Write.value).foldl
        (Scalar.binary .add) Scalar.zero

namespace LoopScope

open Arena

variable {a a' : Arena F} {s s' : LoopScope} {n base : Nat} {v : Value F} {claims : Claims}

/-! ## Loops that are filled -/

/-- The scope of a loop of `n` iterations, and the arena, after contributions
of values with claims. -/
inductive Contributed (n : Nat) : Arena F → LoopScope → List (Claims × Value F) → Prop where
  | begin {a a' : Arena F} {s : LoopScope} (id : Nat) (owned : a.Owned)
      (run : (begin id n).run.run (some a) = (.ok s, some a')) : Contributed n a' s []
  | independent {a : Arena F} {s : LoopScope} {cs : List (Claims × Value F)}
      (array position : Nat) (h : Contributed n a s cs) :
      Contributed n ((newIndependent array position).run.run a).2 s cs
  | operation {a : Arena F} {s : LoopScope} {cs : List (Claims × Value F)}
      (o : Operation (Value F)) (h : Contributed n a s cs)
      (built : ∀ v ∈ o.operands, a.Built v) : Contributed n (o.operator.runIn a).2 s cs
  | read {a : Arena F} {s : LoopScope} {cs : List (Claims × Value F)} (array : Nat) (p : Pattern)
      (h : Contributed n a s cs) : Contributed n ((s.read (F := F) array p).runIn a).2 s cs
  | contribute {a a' : Arena F} {s s' : LoopScope} {cs : List (Claims × Value F)} {v : Value F}
      {claims : Claims} (h : Contributed n a s cs) (built : a.Built v)
      (within : claims.Within n 0x80000000)
      (run : (s.contribute claims v).run.run (some a) = (.ok s', some a')) :
      Contributed n a' s' (cs ++ [(claims, v)])

/-- The writes that are due at an iteration, if `x` has the numbers of the
contributed values: one for each value that is claimed there, unless the value
is known to be zero. -/
def due (cs : List (Claims × Value F)) (x : Value F → Nat → F) (it : Nat) : List (Write F) :=
  cs.filterMap fun e => if e.2.isZero then none else
    (e.1[it]?).map fun c => ⟨c.location, true, summed c.count (x e.2 it)⟩

/-- The streams of contributions. -/
def streamsOf (cs : List (Claims × Value F)) : List (Stream (Nat × Value F)) :=
  (cs.filter fun e => !(e.2.isZero || e.1.isEmpty)).map fun e => multiplesAt e.1 e.2

/-- What is recorded of a loop after contributions. -/
structure Holds (a : Arena F) (s : LoopScope) (n : Nat) (cs : List (Claims × Value F)) :
    Prop where
  body : ∃ base c, s.Body a .multiples n base true c ∧ c.streams.Perm (streamsOf cs)
  built : ∀ e ∈ cs, a.Built e.2

/-- Recording values does not change what is recorded of the loop. -/
theorem Holds.keep {cs : List (Claims × Value F)} (h : Holds a s n cs)
    (keeps : a.Keeps (fun _ k => k.isValue = false) a') (kept : a.Preserves a') :
    Holds a' s n cs where
  body := by
    obtain ⟨base, c, body, perm⟩ := h.body
    exact ⟨base, c, body.keep keeps kept, perm⟩
  built e he := (h.built e he).preserve kept

theorem streamsOf_snoc (cs : List (Claims × Value F)) (claims : Claims) (v : Value F) :
    streamsOf (cs ++ [(claims, v)]) =
      streamsOf cs ++ if v.isZero || claims.isEmpty then [] else [multiplesAt claims v] := by
  rw [streamsOf, List.filter_append, List.map_append, List.filter_singleton]
  cases v.isZero || claims.isEmpty <;> rfl

/-- A contribution of a value of the arena succeeds, and is one more. -/
theorem Holds.ends_contribute {cs : List (Claims × Value F)} (h : Holds a s n cs)
    (small : n < 0x80000000) (built : a.Built v) (within : claims.Within n 0x80000000) :
    Ends (s.contribute claims v : Recording F LoopScope) a fun s' a' =>
      Holds a' s' n (cs ++ [(claims, v)]) := by
  obtain ⟨base, c, body, perm⟩ := h.body
  obtain ⟨s', a', run, keeps, c', body', added⟩ :=
    body.ends_contribute within (by omega) (amounts_multiples built claims)
  refine ⟨s', a', run, ⟨base, c', body', ?_⟩, fun e he => ?_⟩
  · rw [streamsOf_snoc]
    split at added
    case isTrue nothing => rwa [if_pos nothing, List.append_nil, added]
    case isFalse something =>
        rw [if_neg something]
        exact added.trans ((perm.cons _).trans (List.perm_append_singleton ..).symm)
  · have kept : a.Preserves a' :=
      keeps.preserves fun _ _ tier => .inr (Kind.not_appendable_of_tier tier)
    rcases List.mem_append.mp he with he | he
    · exact (h.built e he).preserve kept
    · rw [List.mem_singleton.mp he]
      exact built.preserve kept

theorem Contributed.holds {cs : List (Claims × Value F)} (h : Contributed n a s cs)
    (pos : 0 < n) (small : n < 0x80000000) : Holds a s n cs := by
  induction h with
  | @begin a a' s id owned run =>
      have large : n ≤ openEnd := by
        rw [openEnd]
        omega
      obtain ⟨_, _, run', -, body⟩ := yields_begin .multiples true id pos large owned
      cases run.symm.trans run'
      exact ⟨⟨a.size, .empty, body, .refl _⟩, by simp⟩
  | independent array position h ih =>
      exact ih.keep (keeps_of_le (le_pushed .nil)) (preserves_of_le (le_pushed .nil))
  | @operation a s cs o h built ih =>
      obtain ⟨z, a', run, builds⟩ := o.ends_operator (o.ends_record_built built)
      rw [Recording.runIn, run]
      exact ih.keep builds.keeps builds.preserves
  | @read a s cs array p h ih =>
      obtain ⟨base, c, body, -⟩ := ih.body
      obtain ⟨z, a', run, le, -⟩ := body.yields_readNode array p
      rw [Recording.runIn, run]
      exact ih.keep (keeps_of_le le) (preserves_of_le le)
  | contribute h built within run ih =>
      obtain ⟨_, _, run', holds⟩ := ih.ends_contribute small built within
      cases run.symm.trans run'
      exact holds

/-- One more contribution of a value of the arena succeeds. -/
theorem Contributed.ends_contribute {cs : List (Claims × Value F)} (h : Contributed n a s cs)
    (pos : 0 < n) (small : n < 0x80000000) (built : a.Built v)
    (within : claims.Within n 0x80000000) :
    Ends (s.contribute claims v : Recording F LoopScope) a fun s' a' =>
      Contributed n a' s' (cs ++ [(claims, v)]) := by
  obtain ⟨s', a', run, -⟩ := (h.holds pos small).ends_contribute small built within
  exact ⟨s', a', run, h.contribute built within run⟩

/-! ## Runs -/

section

variable {cs : List (Claims × Value F)} {inputs : List (Array F)} {x : Value F → Nat → F} {it : Nat}

/-- What is due is what the streams of the contributions have. -/
theorem due_eq (cs : List (Claims × Value F)) (x : Value F → Nat → F) (it : Nat) :
    due cs x it = ((streamsOf cs).filterMap fun f => f it).map fun y =>
      ⟨y.1, true, summed y.2.1 (x y.2.2 it)⟩ := by
  rw [due, streamsOf, List.filterMap_map, List.filterMap_filter, List.map_filterMap]
  refine List.filterMap_congr fun e _ => ?_
  cases zero : e.2.isZero with
  | true => rfl
  | false =>
      cases empty : e.1.isEmpty with
      | true => simp [TreeMap.getElem?_of_isEmpty empty]
      | false => cases claimed : e.1[it]? <;> simp [multiplesAt, claimed]

theorem add_of_mem_due {w : Write F} (h : w ∈ due cs x it) : w.add = true := by
  rw [due_eq] at h
  obtain ⟨y, -, rfl⟩ := List.mem_map.mp h
  rfl

/-- The writes of a loop at an iteration are what is due there. -/
theorem exists_writes {emitted : List (NodeRef × List (Stream (Nat × Value F)))}
    (emits : ∀ e ∈ emitted, a.Emits .multiples n true e.1 e.2)
    (perm : (emitted.flatMap Prod.snd).Perm (streamsOf cs))
    (numbers : ∀ e ∈ cs, e.2.isZero = false → ∀ it ∈ e.1,
      ∃ varies, Problem.value? ⟨a, inputs⟩ (some it) e.2 = some (x e.2 it, varies)) (hit : it < n) :
    ∃ ws, (emitted.map Prod.fst).mapM (Problem.writes? ⟨a, inputs⟩ it) = some ws ∧
      ws.flatten.Perm (due cs x it) := by
  let Q (r : Nat × Value F) (y : F) : Prop := y = summed r.1 (x r.2 it)
  have evaluates (f : Stream (Nat × Value F)) (hf : f ∈ emitted.flatMap Prod.snd)
      (y : Nat × Nat × Value F) (hy : f it = some y) :
      Meaning.multiples.Evaluates a inputs it Q y.2 := by
    obtain ⟨e, he, rfl⟩ := List.mem_map.mp (perm.mem_iff.mp hf)
    obtain ⟨mem, something⟩ := List.mem_filter.mp he
    obtain ⟨c, hc, rfl⟩ := Option.map_eq_some_iff.mp hy
    rw [Bool.not_eq_true', Bool.or_eq_false_iff] at something
    have claimed : it ∈ e.1 := TreeMap.mem_iff_isSome_getElem?.mpr (by rw [hc]; rfl)
    obtain ⟨varies, hx⟩ := numbers e mem something.1 it claimed
    exact Meaning.evaluates_multiples hx
  obtain ⟨ws, hws, all⟩ := Problem.mapM_writes?_at emits hit evaluates
  refine ⟨ws, hws, ?_⟩
  have same : ws.flatten = ((emitted.flatMap Prod.snd).filterMap fun f => f it).map fun y =>
      ⟨y.1, true, summed y.2.1 (x y.2.2 it)⟩ := by
    refine eq_map_of_forall₂ (all.flip.imp fun y w carries => ?_)
    obtain ⟨location, add, value⟩ := w
    obtain ⟨rfl, rfl, rfl⟩ := carries
    rfl
  rw [same, due_eq]
  exact (perm.filterMap _).map _

/-- A loop whose results emit the streams of some contributions executes what is
due. -/
theorem delivers_of_loops {loop : NodeRef}
    {emitted : List (NodeRef × List (Stream (Nat × Value F)))}
    (loops : a.Loops .multiples n true loop emitted)
    (perm : (emitted.flatMap Prod.snd).Perm (streamsOf cs))
    (numbers : ∀ e ∈ cs, e.2.isZero = false → ∀ it ∈ e.1,
      ∃ varies, Problem.value? ⟨a, inputs⟩ (some it) e.2 = some (x e.2 it, varies)) :
    Problem.Delivers ⟨a, inputs⟩ loop n (due cs x) := by
  intro m depth sound
  obtain ⟨k, start, hk, -, args, ks, hks, -, info⟩ := loops.node
  obtain ⟨ws, hws⟩ := exists_forall₂ fun it (hit : it ∈ List.range n) =>
    exists_writes (fun e he => loops.emits he) perm numbers (List.mem_range.mp hit)
  have first : k.args[0]? = some (.node start) := by
    rw [args]
    rfl
  have count : Problem.iterations? ⟨a, inputs⟩ start = some n := by
    rw [Problem.iterations?, hks]
    exact info
  have results : k.args.tail.filterMap Value.node? = emitted.map Prod.fst := by
    rw [args, List.tail_cons, List.filterMap_map]
    exact congrFun List.filterMap_eq_map _
  have written := mapM_eq_some_iff.mpr (hws.imp fun _ _ h => h.1)
  rw [← results] at written
  have ends : Ends (Problem.loopLog ⟨a, inputs⟩ depth loop) m fun log m' =>
      log = ws.map List.flatten ∧ _ := Problem.ends_loopLog hk first count written sound
  obtain ⟨_, m', run, rfl, -⟩ := ends
  have logged : List.Forall₂ (fun it (ws : List (Write F)) => ws.Perm (due cs x it))
      (List.range n) (ws.map List.flatten) :=
    List.forall₂_map_right_iff.mpr (hws.imp fun _ _ h => h.2)
  have add (w : Write F) (hw : w ∈ (ws.map List.flatten).flatten) : w.add = true := by
    obtain ⟨l, hl, hw⟩ := List.mem_flatten.mp hw
    obtain ⟨i, hi⟩ := List.mem_iff_getElem?.mp hl
    obtain ⟨it, -, perm⟩ := exists_left_of_forall₂ logged hi
    exact add_of_mem_due (perm.mem_iff.mp hw)
  refine ⟨_, (ws.map List.flatten).flatten.foldl Write.apply ∅, m', run, ?_, logged,
    fun location => ?_⟩
  · rw [Problem.runLoop_succ, StateT.run_map, run]
    rfl
  · rw [getD_foldl_apply_add add, TreeMap.getD_emptyc]

end

/-- A loop that is filled by contributions delivers each of them.  One more
contribution of a value of the arena, claimed at iterations of the loop, always
succeeds; and so does the end of the loop, which leaves a node unless nothing
was contributed.  In the arena as it is then, or with more nodes, a run of the
loop executes at each iteration one write for each value that is claimed there,
of its number at this iteration summed as often as it is claimed, and no other
write; so what is accumulated at a location is the sum of what was claimed
there. -/
theorem Contributed.delivers {cs : List (Claims × Value F)} (h : Contributed n a s cs)
    (pos : 0 < n) (small : n < 0x80000000) :
    (∀ claims v, a.Built v → claims.Within n 0x80000000 →
      Ends (s.contribute claims v : Recording F LoopScope) a fun s' a' =>
        Contributed n a' s' (cs ++ [(claims, v)])) ∧
    Ends (s.close : Recording F (Option NodeRef)) a fun loop? a' =>
      (loop? = none → ∀ e ∈ cs, e.2.isZero || e.1.isEmpty) ∧
      ∀ loop, loop? = some loop → ∀ a'' : Arena F, a'.Keeps LoopKind a'' →
        ∀ (inputs : List (List F)) (x : Value F → Nat → F),
          (∀ e ∈ cs, e.2.isZero = false → ∀ it ∈ e.1,
            a'.evaluateAt inputs it e.2 = .ok (x e.2 it)) →
          Problem.Delivers ⟨a'', inputs.map List.toArray⟩ loop n (due cs x) := by
  refine ⟨fun claims v built within => h.ends_contribute pos small built within, ?_⟩
  have holds := h.holds pos small
  obtain ⟨base, c, body, perm⟩ := holds.body
  obtain ⟨loop?, a', run, le, closed⟩ := body.yields_close
  refine ⟨loop?, a', run, ?_⟩
  rcases closed with ⟨rfl, none⟩ | ⟨loop, emitted, rfl, loops, perm'⟩
  · refine ⟨fun _ e he => ?_, nofun⟩
    rw [none, List.nil_perm, streamsOf, List.map_eq_nil_iff, List.filter_eq_nil_iff] at perm
    simpa only [Bool.not_eq_true', Bool.not_eq_false] using perm e he
  · refine ⟨nofun, fun _ eq a'' later inputs x evaluate => ?_⟩
    cases eq
    refine delivers_of_loops (loops.keep later) (perm'.trans perm) fun e he zero it hit => ?_
    have given := ((holds.built e he).extend le).mono fun _ => Kind.isGiven_of_isRead
    obtain ⟨varies, hx⟩ := given.value?_of_evaluateAt (evaluate e he zero it hit)
    exact ⟨varies, Problem.value?_preserved (later.preserves loopKind_of_tier_zero) hx⟩

/-- Claims of two iterations, the first of which claims twice. -/
def twiceThenOnce (location : Nat) : Claims :=
  ((∅ : Claims).insert 0 ⟨location, 0, 2⟩).insert 1 ⟨location + 1, 0, 1⟩

theorem toList_twiceThenOnce (location : Nat) : (twiceThenOnce location).toList =
    [(0, ⟨location, 0, 2⟩), (1, ⟨location + 1, 0, 1⟩)] := rfl

theorem within_twiceThenOnce {location : Nat} (small : location < 0x7fffffff) :
    (twiceThenOnce location).Within 2 0x80000000 := by
  intro it c hc
  rw [← TreeMap.mem_toList_iff_getElem?_eq_some, toList_twiceThenOnce, List.mem_pair] at hc
  rcases hc with hc | hc <;> cases hc <;> simp <;> omega

/-- Contributes what is read at each iteration twice, to locations that
overlap, and ends the loop. -/
def overlapping : Recording ℚ (Option NodeRef) := do
  let s ← twice.contribute (twiceThenOnce 0) (.node ⟨1, 2⟩)
  let s ← s.contribute (twiceThenOnce 1) (.node ⟨1, 2⟩)
  s.close

theorem ends_overlapping : Ends overlapping reading fun loop? a' => ∃ s a,
    Contributed 2 a s [(twiceThenOnce 0, .node ⟨1, 2⟩), (twiceThenOnce 1, .node ⟨1, 2⟩)] ∧
      s.close.run.run (some a) = (.ok loop?, some a') := by
  have pos : 0 < 2 := by omega
  have small : 2 < 0x80000000 := by omega
  have start : Contributed 2 reading twice [] :=
    read_twice ▸ .read 0 (.linear 1 0) (.begin 0 (owned_empty 1) rfl)
  have built : reading.Built (.node ⟨1, 2⟩) := .source rfl rfl
  refine (start.ends_contribute pos small built (within_twiceThenOnce (by omega))).bind
    fun s a first => ?_
  have built := (first.holds pos small).built _ (List.mem_singleton_self _)
  refine (first.ends_contribute pos small built (within_twiceThenOnce (by omega))).bind
    fun s a second => ?_
  obtain ⟨base, c, body, -⟩ := (second.holds pos small).body
  obtain ⟨loop?, a', run, -⟩ := body.yields_close
  exact ⟨loop?, a', run, s, a, second, run⟩

/-- What is read is the same number when the loop has been closed. -/
theorem evaluateAt_overlapping {loop? : Option NodeRef} {a' : Arena ℚ}
    (run : overlapping.run.run (some reading) = (.ok loop?, some a')) {it : Nat} {x : ℚ}
    (h : (reading.nodes[2]?.bind fun n => n.result? ⟨reading, [#[2, 5]]⟩ (some it) []) = some x) :
    a'.evaluateAt [[2, 5]] it (.node ⟨1, 2⟩) = .ok x := by
  have moves : Recording.Moves Node.Fit overlapping :=
    (twice.moves_contribute _ _).bind fun s => (s.moves_contribute _ _).bind fun s => s.moves_close
  obtain ⟨_, _, run', steps⟩ := moves reading
  cases run.symm.trans run'
  obtain ⟨n, hn, hx⟩ := Option.bind_eq_some_iff.mp h
  have known : Problem.known? ⟨reading, [#[2, 5]]⟩ (some it) 2 = some (x, true) := by
    cases hn
    exact Problem.known?_eq_some_iff.mpr
      ⟨_, [], rfl, fun _ hr => absurd hr List.not_mem_nil, .nil, hx, rfl⟩
  have value : Problem.value? ⟨reading, [#[2, 5]]⟩ (some it) (.node ⟨1, 2⟩) = some (x, true) :=
    known
  exact evaluateAt_of_value? (Problem.value?_preserved steps.continues.preserves value)

/-- Two contributions to locations that overlap. -/
theorem delivers_overlapping : ∃ (s : LoopScope) (a a' : Arena ℚ) (loop : NodeRef),
    let cs := [(twiceThenOnce 0, Value.node ⟨1, 2⟩), (twiceThenOnce 1, .node ⟨1, 2⟩)]
    let x := fun (_ : Value ℚ) (it : Nat) => ([2, 5] : List ℚ).getD it 0
    Contributed 2 a s cs ∧ s.close.run.run (some a) = (.ok (some loop), some a') ∧
      Problem.Delivers ⟨a', [#[2, 5]]⟩ loop 2 (due cs x) ∧
      due cs x 0 = [⟨0, true, 4⟩, ⟨1, true, 4⟩] ∧ due cs x 1 = [⟨1, true, 5⟩, ⟨2, true, 5⟩] := by
  obtain ⟨loop?, a', run, s, a, contributed, close⟩ := ends_overlapping
  obtain ⟨-, _, _, close', none, delivers⟩ := contributed.delivers (by omega) (by omega)
  cases close.symm.trans close'
  obtain ⟨loop, rfl⟩ : ∃ loop, loop? = some loop := by
    refine Option.ne_none_iff_exists'.mp fun nothing => ?_
    cases none nothing _ (List.mem_cons_self ..)
  have first : a'.evaluateAt [[2, 5]] 0 (.node ⟨1, 2⟩) = .ok 2 :=
    evaluateAt_overlapping run rfl
  have second : a'.evaluateAt [[2, 5]] 1 (.node ⟨1, 2⟩) = .ok 5 :=
    evaluateAt_overlapping run rfl
  have four : Scalar.binary .add (2 : ℚ) 2 = 4 := by decide +kernel
  refine ⟨s, a, a', loop, contributed, close, ?_, four ▸ rfl, rfl⟩
  refine delivers loop rfl a' (.refl _ _) [[2, 5]] _ fun e he _ it hit => ?_
  have claimed (location : Nat) (hit : it ∈ twiceThenOnce location) : it = 0 ∨ it = 1 := by
    rw [← TreeMap.mem_keys] at hit
    exact List.mem_pair.mp hit
  rcases List.mem_pair.mp he with rfl | rfl <;> rcases claimed _ hit with rfl | rfl
  all_goals first | exact first | exact second

end LoopScope

end LoopDiff
