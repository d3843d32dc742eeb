import LoopDiff.Proofs.Graph.Paths
import LoopDiff.Proofs.Loop.Claims
import LoopDiff.Proofs.Loop.Emission
import LoopDiff.Proofs.Pattern

/-!
# LoopDiff.Proofs.Loop.Scope

How the body of a loop is recorded.

While a loop is recorded its results are writes, each with one stream, and
conditionals with any number of streams (`LoopScope.Body`).  A contribution
adds one stream, by a write of its own or by way of a conditional that was
there before (`ends_contribute`).  In the second case the nodes of that
conditional get more arguments, and so nothing else may be made of them: no
two conditionals share a node, and all of them are of this loop.

The loop is closed with all of its results, each of them once
(`yields_close`).
-/

namespace LoopDiff

open Std (TreeMap TreeSet)

variable {F R : Type}

/-- A conditional of a loop: the partition it is kept for, the results in
its branches, and the streams they emit. -/
structure Filled (R : Type) where
  partition : Partition
  skeleton : Skeleton
  results : List (List NodeRef)
  streams : List (Stream R)

/-- What the results of a loop emit: its writes with one stream each, and
its conditionals. -/
structure Content (R : Type) where
  writes : List (NodeRef × Stream R)
  conditionals : List (Filled R)

namespace Content

/-- The results of a loop with the streams they emit. -/
def emitted (c : Content R) : List (NodeRef × List (Stream R)) :=
  c.writes.map (fun e => (e.1, [e.2])) ++
    c.conditionals.map fun e => (e.skeleton.endIf, e.streams)

/-- All streams of a loop. -/
def streams (c : Content R) : List (Stream R) := c.emitted.flatMap Prod.snd

/-- The content of a loop without results. -/
def empty : Content R := ⟨[], []⟩

theorem streams_empty : (empty : Content R).streams = [] := rfl

/-- The content with one more write. -/
def addWrite (c : Content R) (w : NodeRef) (f : Stream R) : Content R :=
  { c with writes := c.writes ++ [(w, f)] }

/-- The content with one more conditional. -/
def addConditional (c : Content R) (e : Filled R) : Content R :=
  { c with conditionals := c.conditionals ++ [e] }

theorem streams_eq (c : Content R) : c.streams =
    c.writes.map Prod.snd ++ c.conditionals.flatMap Filled.streams := by
  rw [streams, emitted, List.flatMap_append, List.flatMap_map, List.flatMap_map,
    List.map_eq_flatMap]

theorem results_eq (c : Content R) : c.emitted.map Prod.fst =
    c.writes.map Prod.fst ++ c.conditionals.map fun e => e.skeleton.endIf := by
  rw [emitted, List.map_append, List.map_map, List.map_map]
  rfl

theorem emitted_addWrite (c : Content R) (w : NodeRef) (f : Stream R) :
    (c.addWrite w f).emitted.Perm ((w, [f]) :: c.emitted) := by
  rw [emitted, addWrite, List.map_append, List.append_assoc]
  exact List.perm_middle

theorem emitted_addConditional (c : Content R) (e : Filled R) :
    (c.addConditional e).emitted = c.emitted ++ [(e.skeleton.endIf, e.streams)] := by
  rw [emitted, addConditional, List.map_append, ← List.append_assoc]
  rfl

end Content

/-- The positions of the nodes that make up a conditional. -/
def Skeleton.Owns (sk : Skeleton) (i : Nat) : Prop :=
  i = sk.endIf.index ∨ ∃ b ∈ sk.branches, i = b.node.index

variable {M : Meaning F R} {n base : Nat} {add : Bool}

theorem nodup_eraseDups {α : Type} [BEq α] [LawfulBEq α] (l : List α) : l.eraseDups.Nodup := by
  induction h : l.length using Nat.strong_induction_on generalizing l with
  | _ k ih =>
    cases l with
    | nil => exact .nil
    | cons x l =>
        rw [List.eraseDups_cons]
        have shorter : (l.filter fun y => !y == x).length < k :=
          h ▸ Nat.lt_succ_of_le (List.length_filter_le ..)
        refine List.nodup_cons.mpr ⟨fun mem => ?_, ih _ shorter _ rfl⟩
        simpa using (List.mem_filter.mp (List.mem_eraseDups.mp mem)).2

namespace LoopScope

open Arena

variable {a a' : Arena F} {s : LoopScope} {c : Content R}

/-- The body of a loop that is recorded from the position `base` on. -/
structure Body (s : LoopScope) (a : Arena F) (M : Meaning F R) (n base : Nat) (add : Bool)
    (c : Content R) : Prop where
  pos : 0 < n
  small : n ≤ openEnd
  base_le : base ≤ a.size
  tiered : a.TieredFrom base
  iterations : s.iterations = n
  start : ∃ m, a.node s.start = .ok m ∧ m.kind = .loopStart ∧ m.info[1]? = some n
  index : ∃ m, a.node s.index = .ok m ∧ m.kind = .iteration
  skeletons : s.skeletons = c.conditionals.map fun e => (e.partition, e.skeleton)
  mem_results (r : NodeRef) : r ∈ s.results ↔ r ∈ c.emitted.map Prod.fst
  nodup : (c.emitted.map Prod.fst).Nodup
  write {e : NodeRef × Stream R} : e ∈ c.writes → ∀ it < n, ∃ y, e.2 it = some y ∧
    a.WritesAt M add e.1 it y
  sends {e : Filled R} : e ∈ c.conditionals →
    a.Sends M n add e.skeleton e.results e.streams
  partition {e : Filled R} : e ∈ c.conditionals →
    e.skeleton.branches.map Branch.iterations = e.partition
  apart : c.conditionals.Pairwise fun e e' => ∀ i, e.skeleton.Owns i → ¬e'.skeleton.Owns i
  fresh {e : Filled R} : e ∈ c.conditionals → ∀ i, e.skeleton.Owns i → base ≤ i

/-- The nodes that stay while a loop is recorded: those before the loop, and
those that get no more arguments. -/
def Inside (base i : Nat) (k : Kind) : Prop := i < base ∨ k.isAppendable = false

/-- The body of a loop stays what it is while values are recorded. -/
theorem Body.keep (h : s.Body a M n base add c)
    (keeps : a.Keeps (fun _ k => k.isValue = false) a') (kept : a.Preserves a') :
    s.Body a' M n base add c := by
  have fixed (i : Nat) (k : Kind) (h : k.isFixed = true) : k.isValue = false := by
    rw [Kind.isFixed, Bool.and_eq_true, Bool.not_eq_true', Bool.not_eq_true'] at h
    exact h.2
  have branch (k : Kind) (h : k.tier = 1) : k.isValue = false := by
    cases k <;> first | rfl | cases h
  have value {k : Kind} (h : k.isAppendable = true) : k.isValue = false := by
    cases k <;> first | rfl | cases h
  exact {
    h with
    base_le := h.base_le.trans keeps.size_le
    tiered := keeps.tieredFrom h.base_le (fun _ _ _ _ => value) h.tiered
    start := by
      obtain ⟨m, hm, kind, info⟩ := h.start
      exact ⟨m, keeps.node_eq hm (by rw [kind]; rfl), kind, info⟩
    index := by
      obtain ⟨m, hm, kind⟩ := h.index
      exact ⟨m, keeps.node_eq hm (by rw [kind]; rfl), kind⟩
    write := fun he it hit => by
      obtain ⟨y, hy, at_⟩ := h.write he it hit
      exact ⟨y, hy, at_.keep keeps fixed kept⟩
    sends := fun he => (h.sends he).keep keeps fixed kept (fun _ _ => branch) branch }

theorem Body.extend (h : s.Body a M n base add c) (le : a ≤ a') : s.Body a' M n base add c :=
  h.keep (keeps_of_le le) (preserves_of_le le)

/-- The results of a loop are writes and ends of conditionals. -/
theorem Body.node_of_result (h : s.Body a M n base add c) {r : NodeRef}
    (hr : r ∈ c.emitted.map Prod.fst) : ∃ m, a.node r = .ok m ∧ m.kind.tier ≤ 1 := by
  obtain ⟨e, he, rfl⟩ := List.mem_map.mp hr
  rcases List.mem_append.mp he with he | he
  · obtain ⟨e, he', rfl⟩ := List.mem_map.mp he
    obtain ⟨y, -, m, _, _, _, hm, kind, -⟩ := h.write he' 0 h.pos
    exact ⟨m, hm, by rw [kind]; decide⟩
  · obtain ⟨e, he', rfl⟩ := List.mem_map.mp he
    obtain ⟨m, hm, kind, -⟩ := (h.sends he').conditional.endIf
    exact ⟨m, hm, by rw [kind]; decide⟩

theorem Body.emits (h : s.Body a M n base add c) {e : NodeRef × List (Stream R)}
    (he : e ∈ c.emitted) : a.Emits M n add e.1 e.2 := by
  rcases List.mem_append.mp he with he | he
  · obtain ⟨e, he', rfl⟩ := List.mem_map.mp he
    exact .write (h.write he')
  · obtain ⟨e, he', rfl⟩ := List.mem_map.mp he
    exact .conditional (h.sends he')

/-! ## Beginning, reading and closing -/

section

variable [Scalar F]

variable (M add) in
/-- A loop starts without results. -/
theorem yields_begin (id : Nat) (pos : 0 < n) (small : n ≤ openEnd) (owned : a.Owned) :
    Yields (begin id n : Recording F LoopScope) a fun s a' =>
      s.Body a' M n a.size add (Content.empty : Content R) := by
  rw [begin]
  refine Yields.bind (yields_push_new (by simp) Fits.nil) ?_
  rintro start a₁ le₁ ⟨-, hstart, -⟩
  have fits : a₁.Fits .iteration [.node start] := fits_node hstart (Nat.le_refl 0)
  refine Yields.bind (yields_push_new (by simp) fits) ?_
  rintro index a₂ le₂ ⟨-, hindex, -⟩
  have later := Keeps.size_le le₁
  refine yields_pure ⟨pos, small, later.trans (Keeps.size_le le₂),
    tieredFrom_of_le le₂ later (tieredFrom_of_le le₁ le_rfl owned.tieredFrom), rfl,
    ⟨_, Keeps.node_eq le₂ hstart trivial, rfl, rfl⟩, ⟨_, hindex, rfl⟩, rfl, fun r => Iff.rfl, .nil,
    fun he => absurd he List.not_mem_nil, fun he => absurd he List.not_mem_nil,
    fun he => absurd he List.not_mem_nil, .nil, fun he => absurd he List.not_mem_nil⟩

omit [Scalar F] in
/-- A registered pattern. -/
theorem Body.yields_pattern (h : s.Body a M n base add c) (p : Pattern) :
    Yields (s.pattern p : Recording F Nat) a fun i a' =>
      ∀ it < n, ((a'.pattern? i).bind fun q => q.eval it) = p.eval it := by
  refine (Recording.yields_reporting (yields_addPattern p s.iterations)).mono ?_
  rintro i a' - ⟨⟨q, hq, agree⟩, -⟩ it hit
  rw [pattern?, hq, Option.map_some, Option.bind_some, agree it (h.iterations ▸ hit)]

omit [Scalar F] in
theorem pattern_later {i it v : Nat} (le : a ≤ a')
    (h : ((a.pattern? i).bind fun q => q.eval it) = some v) :
    ((a'.pattern? i).bind fun q => q.eval it) = some v := by
  obtain ⟨q, hq, eval⟩ := Option.bind_eq_some_iff.mp h
  obtain ⟨q', hq', rfl⟩ := Option.map_eq_some_iff.mp hq
  rw [pattern?, Keeps.pattern le hq']
  exact eval

/-- A loop input is a node that reads through its pattern. -/
theorem Body.yields_readNode (h : s.Body a M n base add c) (array : Nat) (p : Pattern) :
    Yields (s.read array p : Recording F (Value F)) a fun v a' => ∃ r i, v = .node r ∧
      a'.node r = .ok ⟨.indexedRead, [.node s.index], [array, i], false⟩ ∧
      ∀ it < n, ∀ position, p.eval it = some position →
        ((a'.pattern? i).bind fun q => q.eval it) = some position := by
  refine Yields.bind (h.yields_pattern p) ?_
  rintro i a₁ le₁ eval_eq
  obtain ⟨mi, hi, kind⟩ := h.index
  have fits : a₁.Fits .indexedRead [.node s.index] :=
    fits_node (Keeps.node_eq le₁ hi trivial) (by rw [kind]; exact Nat.le_refl 0)
  refine Yields.bind (yields_push_new (by simp) fits) ?_
  rintro r a₂ le₂ ⟨-, hr, -⟩
  exact yields_pure ⟨r, i, rfl, hr, fun it hit position eval =>
    pattern_later le₂ ((eval_eq it hit).trans eval)⟩

/-- A loop input stands for what its pattern reads. -/
theorem Body.yields_read [Elementary R] [Reading F R] {inputs : List (Array F)}
    (h : s.Body a (.numbers inputs) n base add c) (array : Nat) (p : Pattern) :
    Yields (s.read array p : Recording F (Value F)) a fun v a' =>
      ∀ it < n, ∀ position x, p.eval it = some position →
        ((inputs[array]?).bind fun values => values[position]?) = some x →
        a'.Means inputs (some it) v (embed x : R) := by
  refine (h.yields_readNode array p).mono ?_
  rintro _ a' - ⟨r, i, rfl, hr, eval_eq⟩ it hit position x eval hx
  obtain ⟨arena, hr⟩ := node_eq_ok_iff.mp hr
  refine ⟨x, true, ?_, rfl⟩
  rw [Problem.value?, if_pos arena]
  refine Problem.known?_eq_some_iff.mpr ⟨_, [], hr, by simp [Node.valueArgs], .nil, ?_, rfl⟩
  simp only [Node.result?, List.getElem?_cons_zero, List.getElem?_cons_succ, Option.bind_eq_bind,
    Option.bind_some, eval_eq it hit position eval]
  exact hx

/-- The loop ends with each of its results once. -/
theorem Body.yields_close (h : s.Body a M n base add c) :
    Yields (s.close : Recording F (Option NodeRef)) a fun loop? a' =>
      (loop? = none ∧ c.streams = []) ∨ ∃ loop emitted, loop? = some loop ∧
        a'.Loops M n add loop emitted ∧ (emitted.flatMap Prod.snd).Perm c.streams := by
  rw [close]
  split
  case isTrue empty =>
      refine yields_pure (.inl ⟨rfl, ?_⟩)
      have none : c.emitted = [] := by
        refine List.eq_nil_iff_forall_not_mem.mpr fun e he => ?_
        have := (h.mem_results e.1).mpr (List.mem_map_of_mem he)
        rw [List.isEmpty_iff.mp empty] at this
        cases this
      rw [Content.streams, none]
      rfl
  case isFalse =>
      have perm : s.results.eraseDups.Perm (c.emitted.map Prod.fst) := by
        refine (List.perm_ext_iff_of_nodup (nodup_eraseDups _) h.nodup).mpr fun r => ?_
        rw [List.mem_eraseDups, h.mem_results]
      obtain ⟨emitted, eq, perm⟩ :=
        (congrFun (congrFun (List.eq_map_comp_perm Prod.fst) _) _).mpr perm
      have results {a' : Arena F} (le : a ≤ a') :
          a'.Fits .loopEnd (s.results.eraseDups.map Value.node) := by
        intro r hr
        obtain ⟨r', hr', eq'⟩ := List.mem_map.mp hr
        cases eq'
        have mem := (h.mem_results r).mp (List.mem_eraseDups.mp hr')
        obtain ⟨m, hm, tier⟩ := h.node_of_result mem
        exact fits_node (Keeps.node_eq le hm trivial) (tier.trans (by decide)) r
          (List.mem_singleton.mpr rfl)
      obtain ⟨ms, hs, kind, info⟩ := h.start
      refine (yields_push_new (by simp)
        ((fits_node hs (by simp [kind, Kind.tier])).cons (results le_rfl))).bind ?_
      rintro loop a₁ le₁ ⟨-, hloop, -⟩
      refine yields_pure (.inr ⟨loop, emitted, rfl, ⟨?_, fun {e} he => ?_⟩, ?_⟩)
      · refine ⟨_, s.start, hloop, rfl, ?_, ms, Keeps.node_eq le₁ hs trivial, kind, info⟩
        rw [eq, List.map_map]
      · exact ((h.extend le₁).emits (perm.mem_iff.mp he))
      · exact perm.flatMap_right _

/-! ## Writes -/

/-- A node that writes a value wherever its pattern has a location. -/
theorem Body.yields_writeNode (h : s.Body a M n base add c) {v : Value F} {p : Nat}
    (fits : a.Fits .indexedWrite [v]) :
    Yields (s.writeNode v p add : Recording F NodeRef) a fun w a' => a.size ≤ w.index ∧
      a'.IsWrite w ∧ ∀ (it : Nat) (y : Nat × R), M.holds a it v y.2 →
        ((a.pattern? p).bind fun q => q.eval it) = some y.1 → a'.WritesAt M add w it y := by
  obtain ⟨mi, hi, kind⟩ := h.index
  have fits' : a.Fits .indexedWrite [.node s.index] :=
    fits_node hi (by rw [kind]; exact Nat.le_refl 0)
  refine Yields.mono (yields_push_new (by simp) (fits.cons fits')) ?_
  rintro w a' le ⟨index, hw, -⟩
  refine ⟨index.ge, ⟨_, hw, rfl⟩, fun it y means eval => ?_⟩
  exact ⟨_, v, _, p, hw, rfl, rfl, rfl, M.extend le means, pattern_later le eval⟩

omit [Scalar F] in
/-- One more write. -/
theorem Body.addWrite (h : s.Body a M n base add c) (le : a ≤ a') {w : NodeRef}
    {f : Stream R} (new : a.size ≤ w.index)
    (writes : ∀ it < n, ∃ y, f it = some y ∧ a'.WritesAt M add w it y) :
    (s.addResult w).Body a' M n base add (c.addWrite w f) := by
  have perm := (c.emitted_addWrite w f).map Prod.fst
  have h' := h.extend le
  exact {
    h' with
    mem_results := fun r => by
      rw [perm.mem_iff, List.map_cons, List.mem_cons, ← h.mem_results r, addResult, List.mem_append,
        List.mem_singleton, or_comm]
    nodup := by
      rw [perm.nodup_iff, List.map_cons, List.nodup_cons]
      refine ⟨fun mem => ?_, h.nodup⟩
      obtain ⟨m, hm, -⟩ := h.node_of_result mem
      exact Nat.lt_irrefl _ (Nat.lt_of_le_of_lt new (lt_of_node hm))
    write := fun {e} he => by
      rcases List.mem_append.mp he with he | he
      · exact h'.write he
      · cases List.mem_singleton.mp he
        exact writes }

/-- A value that is written at every iteration. -/
theorem Body.yields_write (h : s.Body a M n base add c) {v : Value F} {p : Nat}
    {f : Stream R} (hf : ∀ it < n, ∃ y, f it = some y ∧ M.holds a it v y.2 ∧
      ((a.pattern? p).bind fun q => q.eval it) = some y.1) :
    Yields (s.write v p add : Recording F LoopScope) a fun s' a' =>
      ∃ w, s'.Body a' M n base add (c.addWrite w f) := by
  obtain ⟨_, -, means, -⟩ := hf 0 h.pos
  refine Yields.bind (h.yields_writeNode (M.fits means)) ?_
  rintro w a' le ⟨new, -, at_⟩
  refine yields_pure ⟨w, h.addWrite le new fun it hit => ?_⟩
  obtain ⟨y, hy, means, eval⟩ := hf it hit
  exact ⟨y, hy, at_ it y means eval⟩

/-- At every iteration a value goes through a pattern as a stream has it. -/
def Flows (a : Arena F) (M : Meaning F R) (n : Nat) (e : Pattern × Value F)
    (f : Stream R) : Prop :=
  ∀ it < n, ∃ y, f it = some y ∧ e.1.eval it = some y.1 ∧ M.holds a it e.2 y.2

omit [Scalar F] in
theorem Flows.extend {e : Pattern × Value F} {f : Stream R} (h : Flows a M n e f)
    (le : a ≤ a') : Flows a' M n e f := fun it hit => by
  obtain ⟨y, hy, at_, means⟩ := h it hit
  exact ⟨y, hy, at_, M.extend le means⟩

/-- Values that are written at every iteration, one after the other. -/
theorem Body.yields_writeAll (h : s.Body a M n base add c) {es : List (Pattern × Value F)}
    {fs : List (Stream R)} (hes : List.Forall₂ (Flows a M n) es fs) :
    Yields (es.foldlM (fun (s : LoopScope) (p, v) => do s.write v (← s.pattern p) add) s :
      Recording F LoopScope) a fun s' a' =>
        ∃ c', s'.Body a' M n base add c' ∧ c'.streams.Perm (fs ++ c.streams) := by
  induction es generalizing fs s a c with
  | nil =>
      cases hes
      exact yields_pure ⟨c, h, .refl _⟩
  | cons e es ih =>
      obtain ⟨f, fs, he, rest, rfl⟩ := List.forall₂_cons_left_iff.mp hes
      rw [List.foldlM_cons]
      refine Yields.bind (P := fun s' a' => ∃ w, s'.Body a' M n base add (c.addWrite w f)) ?_
        fun s' a' le ⟨w, h'⟩ => ?_
      · refine Yields.bind (h.yields_pattern e.1) fun p a₁ le₁ eval => ?_
        refine (h.extend le₁).yields_write fun it hit => ?_
        obtain ⟨y, hy, at_, means⟩ := he it hit
        exact ⟨y, hy, M.extend le₁ means, (eval it hit).trans at_⟩
      · refine (ih h' (rest.imp fun e f he => he.extend le)).mono ?_
        rintro s'' a'' - ⟨c', h'', perm⟩
        refine ⟨c', h'', perm.trans ?_⟩
        exact (((c.emitted_addWrite w f).flatMap_right Prod.snd).append_left fs).trans
          List.perm_middle

end

/-! ## Conditionals -/

/-- The nodes of a conditional are there. -/
theorem owns_lt {sk : Skeleton} {results : List (List NodeRef)} (h : a.Conditional n sk results)
    {i : Nat} (owns : sk.Owns i) : i < a.size := by
  rcases owns with rfl | ⟨b, hb, rfl⟩
  · obtain ⟨m, hm, -⟩ := h.endIf
    exact lt_of_node hm
  · obtain ⟨k, hk⟩ := List.mem_iff_getElem?.mp hb
    obtain ⟨m, _, _, _, hm, -⟩ := h.branch hk
    exact lt_of_node hm

theorem owns_follower (sk : Skeleton) (k : Nat) : sk.Owns (follower sk k).index := by
  rw [follower]
  cases next : sk.branches[k + 1]? with
  | none => exact .inl rfl
  | some b => exact .inr ⟨b, List.mem_of_getElem? next, rfl⟩

/-- One more conditional. -/
theorem Body.addConditional (h : s.Body a M n base add c) (le : a ≤ a') {e : Filled R}
    {branches : Nat} (sends : a'.Sends M n add e.skeleton e.results e.streams)
    (partition : e.skeleton.branches.map Branch.iterations = e.partition)
    (new : ∀ i, e.skeleton.Owns i → a.size ≤ i) :
    (({ s with
        branches, skeletons := s.skeletons ++ [(e.partition, e.skeleton)] } : LoopScope).addResult
      e.skeleton.endIf).Body a' M n base add (c.addConditional e) := by
  have h' := h.extend le
  have eq := c.emitted_addConditional e
  have later (i : Nat) (owns : e.skeleton.Owns i) : ¬i < a.size := Nat.not_lt.mpr (new i owns)
  exact {
    h' with
    skeletons := by
      rw [addResult, Content.addConditional, List.map_append, ← h.skeletons]
      rfl
    mem_results := fun r => by
      rw [eq, List.map_append, List.mem_append, ← h.mem_results r, addResult, List.mem_append]
      rfl
    nodup := by
      rw [eq, List.map_append, List.nodup_append]
      refine ⟨h.nodup, List.nodup_singleton _, ?_⟩
      rintro r hr _ hr' rfl
      cases List.mem_singleton.mp hr'
      obtain ⟨m, hm, -⟩ := h.node_of_result hr
      exact later _ (.inl rfl) (lt_of_node hm)
    sends := fun {e'} he => by
      rcases List.mem_append.mp he with he | he
      · exact h'.sends he
      · cases List.mem_singleton.mp he
        exact sends
    partition := fun {e'} he => by
      rcases List.mem_append.mp he with he | he
      · exact h.partition he
      · cases List.mem_singleton.mp he
        exact partition
    apart := by
      refine List.pairwise_append.mpr ⟨h.apart, List.pairwise_singleton _ _, ?_⟩
      intro e' he' e'' he'' i owns owns'
      cases List.mem_singleton.mp he''
      exact later i owns' (owns_lt (h.sends he').conditional owns)
    fresh := fun {e'} he i owns => by
      rcases List.mem_append.mp he with he | he
      · exact h.fresh he i owns
      · cases List.mem_singleton.mp he
        exact h.base_le.trans (new i owns) }

/-- Filling a conditional changes nothing but its own nodes. -/
theorem keeps_filled {sk : Skeleton} {results : List (List NodeRef)}
    (h : a.Conditional n sk results) (keeps : a.Keeps (fun i _ => NotFollower sk i) a') :
    a.Keeps (fun i k => ¬sk.Owns i ∨ k.isAppendable = false) a' := by
  refine keeps.of_nodes fun i m hm kept k lt eq => ?_
  rcases kept with apart | fixed
  · exact apart (eq ▸ owns_follower sk k)
  · obtain ⟨l, hl⟩ := h.getElem?_results (List.getElem?_eq_getElem lt)
    obtain ⟨mf, _, hmf, appendable, -⟩ := follower_node h (List.getElem?_eq_getElem lt) hl
    have same := (node_eq_ok_iff.mp hmf).2
    rw [← eq, hm] at same
    cases same
    rw [fixed] at appendable
    cases appendable

/-- What filling a conditional leaves alone. -/
theorem fixed_of_filled {sk : Skeleton} (i : Nat) (k : Kind) (h : k.isFixed = true) :
    ¬sk.Owns i ∨ k.isAppendable = false :=
  .inr (Kind.isAppendable_of_isFixed h)

/-- Filling a conditional changes no value. -/
theorem preserves_of_filled {sk : Skeleton}
    (keeps : a.Keeps (fun i k => ¬sk.Owns i ∨ k.isAppendable = false) a') : a.Preserves a' :=
  keeps.preserves fun _ _ tier => .inr (Kind.not_appendable_of_tier tier)

/-- Filling a conditional does not touch the other conditionals. -/
theorem Body.sends_filled (h : s.Body a M n base add c) {l₁ l₂ : List (Filled R)}
    {e : Filled R} (here : c.conditionals = l₁ ++ e :: l₂)
    (keeps : a.Keeps (fun i k => ¬e.skeleton.Owns i ∨ k.isAppendable = false) a') {e' : Filled R}
    (he' : e' ∈ l₁ ++ l₂) : a'.Sends M n add e'.skeleton e'.results e'.streams := by
  have mem : e' ∈ c.conditionals :=
    here ▸ List.perm_middle.mem_iff.mpr (List.mem_cons_of_mem _ he')
  have apart (i : Nat) (owns : e'.skeleton.Owns i) : ¬e.skeleton.Owns i := by
    have pairwise := h.apart
    rw [here] at pairwise
    obtain ⟨-, right, across⟩ := List.pairwise_append.mp pairwise
    rcases List.mem_append.mp he' with he' | he'
    · exact across e' he' e (List.mem_cons_self ..) i owns
    · exact fun owns' => (List.pairwise_cons.mp right).1 e' he' i owns' owns
  exact (h.sends mem).keep keeps fixed_of_filled (preserves_of_filled keeps)
    (fun b hb _ _ => .inl (apart _ (.inr ⟨b, hb, rfl⟩))) fun _ _ => .inl (apart _ (.inl rfl))

/-- One more result for every branch sends one more stream. -/
theorem sends_extended {sk : Skeleton} {results results' : List (List NodeRef)}
    {writes : List NodeRef} {fs : List (Stream R)} {f : Stream R}
    (h : a.Sends M n add sk results fs) (conditional : a'.Conditional n sk results')
    (extended : Extended a' sk.branches writes results results')
    (keeps : a.Keeps (fun i k => ¬sk.Owns i ∨ k.isAppendable = false) a')
    (len : sk.branches.length = writes.length)
    (sent : ∀ (k : Nat) (b : Branch) (w : NodeRef), sk.branches[k]? = some b →
      writes[k]? = some w → ∀ it ∈ b.iterations, it < n →
        ∃ y, f it = some y ∧ a.WritesAt M add w it y)
    (nothing : ∀ it < n, (∀ b ∈ sk.branches, it ∉ b.iterations) → f it = none) :
    a'.Sends M n add sk results' (fs ++ [f]) := by
  refine ⟨conditional, fun {k b} hb => ?_, fun {f'} {it} hf' hit free => ?_⟩
  · have lt := (List.getElem?_eq_some_iff.mp hb).1
    obtain ⟨w, hw⟩ : ∃ w, writes[k]? = some w := ⟨_, List.getElem?_eq_getElem (len ▸ lt)⟩
    obtain ⟨r, hr, guards⟩ := extended.one_more hb hw
    rw [List.getD_eq_getElem?_getD, hr, Option.getD_some]
    refine List.rel_append ((h.sent hb).imp fun r' f' => ?_) (.cons ?_ .nil)
    · rintro ⟨w', guards', writes'⟩
      refine ⟨w', guards'.keep keeps fixed_of_filled, fun it mem hit => ?_⟩
      obtain ⟨y, hy, at_⟩ := writes' it mem hit
      exact ⟨y, hy, at_.keep keeps fixed_of_filled (preserves_of_filled keeps)⟩
    · refine ⟨w, guards, fun it mem hit => ?_⟩
      obtain ⟨y, hy, at_⟩ := sent k b w hb hw it mem hit
      exact ⟨y, hy, at_.keep keeps fixed_of_filled (preserves_of_filled keeps)⟩
  · rcases List.mem_append.mp hf' with hf' | hf'
    · exact h.nothing hf' hit free
    · cases List.mem_singleton.mp hf'
      exact nothing it hit free

/-- One more stream for a conditional. -/
theorem Body.ends_fill [Scalar F] (h : s.Body a M n base add c) {l₁ l₂ : List (Filled R)}
    {e : Filled R} (here : c.conditionals = l₁ ++ e :: l₂) {writes : List NodeRef} {f : Stream R}
    (len : e.skeleton.branches.length = writes.length) (hw : ∀ w ∈ writes, a.IsWrite w)
    (sent : ∀ (k : Nat) (b : Branch) (w : NodeRef), e.skeleton.branches[k]? = some b →
      writes[k]? = some w → ∀ it ∈ b.iterations, it < n →
        ∃ y, f it = some y ∧ a.WritesAt M add w it y)
    (nothing : ∀ it < n, (∀ b ∈ e.skeleton.branches, it ∉ b.iterations) → f it = none) :
    Ends (LoopScope.extend e.skeleton writes : Recording F Unit) a fun _ a' =>
      a.Keeps (Inside base) a' ∧ ∃ results',
        (({ s with reused := s.reused + 1 } : LoopScope).addResult e.skeleton.endIf).Body a' M n
          base add ⟨c.writes,
            l₁ ++ { e with results := results', streams := e.streams ++ [f] } :: l₂⟩ := by
  have mem : e ∈ c.conditionals := by simp [here]
  have sends := h.sends mem
  have after (k : Nat) : base ≤ (follower e.skeleton k).index :=
    h.fresh mem _ (owns_follower e.skeleton k)
  refine (LoopScope.ends_extend sends.conditional h.tiered h.base_le after len hw).mono ?_
  rintro _ a' ⟨results', conditional, extended, keeps, tiered⟩
  have keeps := keeps_filled sends.conditional keeps
  have inside : a.Keeps (Inside base) a' := by
    refine keeps.mono fun i k => Or.imp_left fun lt owns => ?_
    exact Nat.lt_irrefl _ (Nat.lt_of_lt_of_le lt (h.fresh mem i owns))
  have one_more := sends_extended sends conditional extended keeps len sent nothing
  refine ⟨inside, results', ?_⟩
  let e' : Filled R := { e with results := results', streams := e.streams ++ [f] }
  have same : (l₁ ++ e' :: l₂).map (fun e => (e.partition, e.skeleton)) =
      c.conditionals.map fun e => (e.partition, e.skeleton) := by
    rw [here, List.map_append, List.map_append]
    rfl
  have ends : (Content.emitted ⟨c.writes, l₁ ++ e' :: l₂⟩).map Prod.fst =
      c.emitted.map Prod.fst := by
    rw [Content.results_eq, Content.results_eq, here, List.map_append, List.map_append]
    rfl
  have which {e'' : Filled R} (he : e'' ∈ l₁ ++ e' :: l₂) : e'' = e' ∨ e'' ∈ l₁ ++ l₂ :=
    List.mem_cons.mp (List.perm_middle.mem_iff.mp he)
  have kept {e'' : Filled R} (he : e'' ∈ l₁ ++ l₂) : e'' ∈ c.conditionals :=
    here ▸ List.perm_middle.mem_iff.mpr (List.mem_cons_of_mem _ he)
  exact {
    h with
    base_le := h.base_le.trans inside.size_le
    tiered
    start := by
      obtain ⟨m, hm, kind, info⟩ := h.start
      exact ⟨m, keeps.node_eq hm (fixed_of_filled _ _ (by rw [kind]; rfl)), kind, info⟩
    index := by
      obtain ⟨m, hm, kind⟩ := h.index
      exact ⟨m, keeps.node_eq hm (fixed_of_filled _ _ (by rw [kind]; rfl)), kind⟩
    skeletons := h.skeletons.trans same.symm
    mem_results := fun r => by
      rw [ends, ← h.mem_results r, addResult, List.mem_append, List.mem_singleton]
      refine ⟨fun hr => hr.elim id fun eq => ?_, .inl⟩
      rw [eq, h.mem_results]
      exact List.mem_map.mpr ⟨(e.skeleton.endIf, e.streams),
        List.mem_append_right _ (List.mem_map_of_mem mem), rfl⟩
    nodup := ends ▸ h.nodup
    write := fun {e''} he it hit => by
      obtain ⟨y, hy, at_⟩ := h.write he it hit
      exact ⟨y, hy, at_.keep keeps fixed_of_filled (preserves_of_filled keeps)⟩
    sends := fun {e''} he => by
      rcases which he with rfl | he
      · exact one_more
      · exact h.sends_filled here keeps he
    partition := fun {e''} he => by
      rcases which he with rfl | he
      · change e.skeleton.branches.map Branch.iterations = e.partition
        exact h.partition mem
      · exact h.partition (kept he)
    apart := by
      let Apart (sk sk' : Skeleton) : Prop := ∀ i, sk.Owns i → ¬sk'.Owns i
      have apart : (c.conditionals.map Filled.skeleton).Pairwise Apart :=
        List.pairwise_map.mpr h.apart
      rw [here, List.map_append] at apart
      refine List.pairwise_map.mp (?_ : ((l₁ ++ e' :: l₂).map Filled.skeleton).Pairwise Apart)
      rw [List.map_append]
      exact apart
    fresh := fun {e''} he i owns => by
      rcases which he with rfl | he
      · exact h.fresh mem i owns
      · exact h.fresh (kept he) i owns }

end LoopScope

end LoopDiff
