import LoopDiff.Proofs.Graph.Sketch
import LoopDiff.Proofs.Loop.Multiples
import LoopDiff.Proofs.Loop.Partitions
import LoopDiff.Proofs.Loop.Recordings

/-!
# LoopDiff.Proofs.Loop.Sharing

Values that share a conditional.

A value that is claimed alike by all iterations needs no conditional; any
other goes to the conditional of its partition, which the scope records for
the first value with this partition (`LoopScope.Places`).  So after any
number of values the scope has one conditional for each partition that has
come up, and nothing else of a value tells which conditional it goes to
(`LoopScope.Placing.shared`).

The statements are about values that are placed.  What is recorded in
between, by whatever means, is left open.
-/

namespace LoopDiff

open Arena Sketch

variable {F : Type}

/-! ## Nodes that open and close conditionals -/

/-- A node that neither opens nor closes a conditional. -/
def Node.Inner (n : Node F) : Prop := n.kind ≠ .startIf ∧ n.kind ≠ .endIf

theorem Node.inner_of_computes (n : Node F) (h : n.Computes) : n.Inner := by
  constructor <;> intro kind <;> rw [Node.Computes, kind] at h <;> exact h

namespace Arena

variable {a a' a'' : Arena F} {opened closed opened' closed' : Nat}

/-- A later arena, with more nodes that open and close conditionals. -/
structure Adds (a : Arena F) (opened closed : Nat) (a' : Arena F) : Prop where
  size_le : a.size ≤ a'.size
  startIf : a'.count .startIf = a.count .startIf + opened
  endIf : a'.count .endIf = a.count .endIf + closed

theorem Adds.refl (a : Arena F) : a.Adds 0 0 a := ⟨Nat.le.refl, rfl, rfl⟩

theorem Adds.trans (h : a.Adds opened closed a') (h' : a'.Adds opened' closed' a'') :
    a.Adds (opened + opened') (closed + closed') a'' where
  size_le := h.size_le.trans h'.size_le
  startIf := by rw [h'.startIf, h.startIf, Nat.add_assoc]
  endIf := by rw [h'.endIf, h.endIf, Nat.add_assoc]

theorem count_pushed (a : Arena F) (n : Node F) (kind : Kind) :
    (a.pushed n).count kind = a.count kind + if n.kind = kind then 1 else 0 := by
  rw [count, pushed, Array.countP_push]
  simp [count]

theorem size_pushed (a : Arena F) (n : Node F) : (a.pushed n).size = a.size + 1 :=
  Array.size_push n

theorem adds_pushed (a : Arena F) (n : Node F) : a.Adds (if n.kind = .startIf then 1 else 0)
    (if n.kind = .endIf then 1 else 0) (a.pushed n) :=
  ⟨(size_pushed a n).symm ▸ Nat.le_succ _, count_pushed .., count_pushed ..⟩

/-- Changes that leave the kinds of the nodes as they are. -/
theorem adds_of_kinds (h : a'.nodes.map Node.kind = a.nodes.map Node.kind) : a.Adds 0 0 a' := by
  have same (kind : Kind) : a'.count kind = a.count kind := by
    have counted (a : Arena F) : a.count kind = (a.nodes.map Node.kind).countP (· == kind) := by
      rw [Array.countP_map]
      rfl
    rw [counted, counted, h]
  have size := congrArg Array.size h
  rw [Array.size_map, Array.size_map] at size
  exact ⟨size.ge, same _, same _⟩

theorem Step.adds [Scalar F] (h : a.Step Node.Inner a') : a.Adds 0 0 a' := by
  cases h with
  | node n inner own =>
      have adds := a.adds_pushed n
      rwa [if_neg inner.1, if_neg inner.2] at adds
  | arguments target n args found appendable own away =>
      refine adds_of_kinds (Array.ext_getElem? fun i => ?_)
      rw [Array.getElem?_map, Array.getElem?_map, node_extended, Option.map_map]
      rfl
  | mark r =>
      refine adds_of_kinds (Array.ext_getElem? fun i => ?_)
      rw [Array.getElem?_map, Array.getElem?_map, node_marked, Option.map_map]
      rfl
  | pattern p n => exact ⟨Nat.le.refl, rfl, rfl⟩

theorem Continues.size_le (h : a.Continues a') : a.size ≤ a'.size := by
  by_contra lt
  obtain ⟨n', -, hn', -⟩ := h.node (Array.getElem?_eq_getElem (Nat.lt_of_not_le lt))
  exact absurd (Array.getElem?_eq_some_iff.mp hn').1 (Nat.lt_irrefl _)

theorem Steps.adds [Scalar F] (h : a.Steps Node.Inner a') : a.Adds 0 0 a' := by
  induction h with
  | refl => exact .refl a
  | tail _ step ih => exact ih.trans step.adds

end Arena

/-! ## Runs that give a result -/

namespace Sketch

variable {α β : Type} {a : Sketch F} {shape : Node F → Prop}

theorem ends_of_moves [Scalar F] {c : Recording F α} (h : Recording.Moves shape c) :
    Ends c a fun _ a' => a.arena.Steps shape a'.arena := by
  intro x s run
  obtain ⟨r, a', run', steps⟩ := h a.arena
  cases run.symm.trans run'
  exact ⟨a', rfl, steps.weaken fun _ _ => trivial, steps⟩

theorem ends_inner [Scalar F] {c : Recording F α} (h : Recording.Moves Node.Inner c) :
    Ends c a fun _ a' => a.arena.Adds 0 0 a'.arena :=
  (ends_of_moves h).mono fun _ _ steps => steps.adds

/-- There is one result for each element. -/
theorem ends_mapM [Scalar F] {f : α → Recording F β} (hf : ∀ x, Recording.Moves Node.Inner (f x))
    (xs : List α) :
    Ends (xs.mapM f) a fun ys a' => ys.length = xs.length ∧ a.arena.Adds 0 0 a'.arena := by
  induction xs generalizing a with
  | nil => exact ends_pure ⟨rfl, .refl _⟩
  | cons x xs ih =>
      rw [List.mapM_cons]
      refine (ends_inner (hf x)).bind fun y a₁ adds => ?_
      refine ih.bind fun ys a₂ ⟨length, adds'⟩ => ?_
      exact ends_pure ⟨congrArg Nat.succ length, adds.trans adds'⟩

/-- A node other than an elementary operation is new. -/
theorem ends_pushCounted [Scalar F] {kind : Kind} (structural : ∀ code, kind ≠ .op code)
    (args : List (Value F)) (info : List Nat) :
    Ends (Recording.push kind args info) a fun r a' => r.index = a.arena.size ∧
      r.index < a'.arena.size ∧
      a.arena.Adds (if kind = .startIf then 1 else 0) (if kind = .endIf then 1 else 0) a'.arena := by
  refine ends_reporting (ends_of_run (Arena.moves_push trivial) fun r a' run => ?_)
  rcases run_push kind args info a.arena with
    ⟨e, run'⟩ | ⟨-, ⟨code, -, op, -⟩ | ⟨-, run'⟩⟩
  · cases run.symm.trans run'
  · exact absurd op (structural code)
  · cases run.symm.trans run'
    exact ⟨rfl, (size_pushed ..).symm ▸ Nat.lt_succ_self _,
      a.arena.adds_pushed ⟨kind, args, info, false⟩⟩

end Sketch

/-! ## Claims that need no conditional -/

/-- All iterations are claimed, and all the same number of times. -/
def Claims.Uniform (claims : Claims) (n : Nat) : Prop :=
  (∃ count, ∀ (it : Nat) (c : Claim), claims[it]? = some c → c.count = count) ∧
    ∀ it < n, it ∈ claims

namespace LoopScope

variable {claims : Claims} {n : Nat}

/-- Every claim is at an iteration of the loop. -/
theorem lt_of_covered
    (covered : (claims.keys.filter fun it => decide (it < n)).length = claims.size) {it : Nat}
    (h : it ∈ claims) : it < n := by
  have all : (claims.keys.filter fun it => decide (it < n)).length = claims.keys.length :=
    covered.trans Std.TreeMap.length_keys.symm
  have kept := List.length_filter_eq_length_iff.mp all it (Std.TreeMap.mem_keys.mpr h)
  exact of_decide_eq_true kept

/-- The claims of a single number cover the loop exactly if they are as many
as the iterations. -/
theorem uniform_iff (inside : ∀ it ∈ claims, it < n) {count : Nat} {m : Std.TreeMap Nat Nat}
    (h : (groups claims).toList = [(count, m)]) : claims.Uniform n ↔ m.size = n := by
  have mem (e : Nat × Std.TreeMap Nat Nat) : (groups claims)[e.1]? = some e.2 ↔ e = (count, m) := by
    rw [← Std.TreeMap.mem_toList_iff_getElem?_eq_some, h, List.mem_singleton]
  have all {it : Nat} {c : Claim} (hc : claims[it]? = some c) : c.count = count ∧ it ∈ m.keys := by
    obtain ⟨m', hm', here⟩ := exists_group hc
    obtain ⟨same, rfl⟩ := Prod.mk.inj ((mem (c.count, m')).mp hm')
    refine ⟨same, Std.TreeMap.mem_keys.mpr ?_⟩
    rw [Std.TreeMap.mem_iff_isSome_getElem?, here]
    rfl
  have keys (it : Nat) : it ∈ m.keys ↔ it ∈ claims := by
    constructor
    · intro hit
      rw [Std.TreeMap.mem_keys, Std.TreeMap.mem_iff_isSome_getElem?,
        Option.isSome_iff_exists] at hit
      obtain ⟨location, hl⟩ := hit
      obtain ⟨c, hc, -⟩ := (mem_group ((mem (count, m)).mpr rfl)).mp hl
      rw [Std.TreeMap.mem_iff_isSome_getElem?, hc]
      rfl
    · intro hit
      rw [Std.TreeMap.mem_iff_isSome_getElem?, Option.isSome_iff_exists] at hit
      obtain ⟨c, hc⟩ := hit
      exact (all hc).2
  have nodup : m.keys.Nodup := Std.TreeMap.distinct_keys.imp fun ne eq =>
    ne (Nat.compare_eq_eq.mpr eq)
  have sub : m.keys ⊆ List.range n := fun it hit =>
    List.mem_range.mpr (inside it ((keys it).mp hit))
  rw [← Std.TreeMap.length_keys]
  constructor
  · rintro ⟨-, covers⟩
    have perm : m.keys.Perm (List.range n) :=
      (List.perm_ext_iff_of_nodup nodup List.nodup_range).mpr fun it =>
        ⟨fun hit => sub hit, fun hit => (keys it).mpr (covers it (List.mem_range.mp hit))⟩
    rw [perm.length_eq, List.length_range]
  · intro length
    refine ⟨⟨count, fun it c hc => (all hc).1⟩, fun it hit => (keys it).mp ?_⟩
    have perm : m.keys.Perm (List.range n) :=
      (List.subperm_of_subset nodup sub).perm_of_length_le (by rw [length, List.length_range])
    exact perm.mem_iff.mpr (List.mem_range.mpr hit)

/-- Claims of a single number have a single group. -/
theorem toList_groups_of_uniform (uniform : claims.Uniform n) (some : claims.isEmpty = false) :
    ∃ count m, (groups claims).toList = [(count, m)] := by
  obtain ⟨⟨count, same⟩, -⟩ := uniform
  obtain ⟨it, hit⟩ := Std.TreeMap.isEmpty_eq_false_iff_exists_mem.mp some
  rw [Std.TreeMap.mem_iff_isSome_getElem?, Option.isSome_iff_exists] at hit
  obtain ⟨c, hc⟩ := hit
  obtain ⟨m, hm, -⟩ := exists_group hc
  refine ⟨c.count, m, List.perm_singleton.mp ?_⟩
  have nodup : (groups claims).toList.Nodup := Std.TreeMap.distinct_keys_toList.imp fun ne eq =>
    ne (by rw [eq]; exact Std.ReflOrd.compare_self)
  refine (List.perm_ext_iff_of_nodup nodup (List.nodup_singleton _)).mpr fun e => ?_
  rw [Std.TreeMap.mem_toList_iff_getElem?_eq_some, List.mem_singleton]
  constructor
  · intro he
    obtain ⟨it', c', hc', count'⟩ := exists_of_group he
    have key : e.1 = c.count := count'.symm.trans ((same it' c' hc').trans (same it c hc).symm)
    exact Prod.ext key (Option.some.inj (he.symm.trans (key ▸ hm)))
  · rintro rfl
    exact hm

/-! ## Placing a value -/

variable {s : LoopScope} {a a' : Arena F}

/-- What placing a value comes to: one write, a kept conditional, or a new
one. -/
inductive Places (s : LoopScope) (claims : Claims) (a : Arena F) :
    LoopScope × Placed F → Arena F → Prop where
  | everywhere {a' : Arena F} {v : Value F} {pattern : Nat} (uniform : claims.Uniform s.iterations)
      (adds : a.Adds 0 0 a') : Places s claims a (s, .everywhere v pattern) a'
  | kept {a' : Arena F} {k : Skeleton} (mixed : ¬claims.Uniform s.iterations)
      (found : s.skeletons.lookup claims.key = some k) (adds : a.Adds 0 0 a') :
      Places s claims a ({ s with reused := s.reused + 1 }, .conditional k.endIf) a'
  | new {a' : Arena F} {k : Skeleton} (mixed : ¬claims.Uniform s.iterations)
      (missing : s.skeletons.lookup claims.key = none)
      (branches : k.branches.length = claims.key.length) (fresh : a.size ≤ k.endIf.index)
      (inside : k.endIf.index < a'.size) (adds : a.Adds 1 1 a') :
      Places s claims a ({ s with
        branches := s.branches + k.branches.length
        skeletons := s.skeletons ++ [(claims.key, k)] }, .conditional k.endIf) a'

variable [Scalar F] {a : Sketch F}

theorem ends_branchNode (s : LoopScope) (start : Option NodeRef) (iterations : List Nat)
    (taken : IndexSet) (earlier : List (Value F)) :
    Ends (s.branchNode start iterations taken earlier) a fun _ a' =>
      a.arena.Adds (if start = none then 1 else 0) 0 a'.arena := by
  cases start with
  | none =>
      refine (ends_pushCounted (by simp) _ _).bind fun c a₁ h => ?_
      refine (ends_pushCounted (by simp) _ _).mono fun r a₂ h' => ?_
      exact h.2.2.trans h'.2.2
  | some start =>
      rw [branchNode]
      split
      case isTrue => exact (ends_pushCounted (by simp) _ _).mono fun r a₁ h => h.2.2
      case isFalse =>
          refine (ends_pushCounted (by simp) _ _).bind fun c a₁ h => ?_
          refine (ends_pushCounted (by simp) _ _).mono fun r a₂ h' => ?_
          exact h.2.2.trans h'.2.2

/-- The first branch opens the conditional. -/
theorem ends_addBranch (s : LoopScope) (p : Progress F) (iterations : List Nat)
    (write : NodeRef) :
    Ends (s.addBranch p iterations write) a fun p' a' =>
      a.arena.Adds (if p.start = none then 1 else 0) 0 a'.arena ∧ p'.start ≠ none ∧
        p'.branches.length = p.branches.length + 1 := by
  refine (s.ends_branchNode _ _ _ _).bind fun node a₁ adds => ?_
  refine (ends_pushCounted (by simp) _ _).bind fun result a₂ ⟨_, _, adds'⟩ => ?_
  exact ends_pure ⟨adds.trans adds', by simp, by simp⟩

/-- A conditional with at least one branch is opened and closed once. -/
theorem ends_newConditional (s : LoopScope) {partition : Partition} {writes : List NodeRef}
    (some : partition ≠ []) (length : writes.length = partition.length) :
    Ends (s.newConditional (F := F) partition writes) a fun k a' =>
      k.branches.length = partition.length ∧ a.arena.size ≤ k.endIf.index ∧
        k.endIf.index < a'.arena.size ∧ a.arena.Adds 1 1 a'.arena := by
  have count : (partition.zip writes).length = partition.length := by
    rw [List.length_zip, length, Nat.min_self]
  refine (ends_foldlM (fun done (p : Progress F) a' =>
    a.arena.Adds (if done = [] then 0 else 1) 0 a'.arena ∧ (p.start = none ↔ done = []) ∧
      p.branches.length = done.length) ⟨.refl _, by simp, rfl⟩ ?_).bind ?_
  · rintro done ⟨iterations, write⟩ rest p a₁ - ⟨adds, start, branches⟩
    refine (s.ends_addBranch p iterations write).mono fun p' a₂ ⟨adds', start', branches'⟩ => ?_
    refine ⟨?_, by simp [start'], by simp [branches, branches']⟩
    have both := adds.trans adds'
    rw [if_congr start rfl rfl] at both
    by_cases first : done = [] <;> simpa [first] using both
  · rintro p a₁ ⟨adds, -, branches⟩
    refine (ends_pushCounted (by simp) _ _).bind fun r a₂ ⟨index, inside, adds'⟩ => ?_
    have opened : partition.zip writes ≠ [] := fun empty => by
      rw [empty, List.length_nil] at count
      exact some (List.length_eq_zero_iff.mp count.symm)
    rw [if_neg opened] at adds
    exact ends_pure ⟨branches.trans count, index ▸ adds.size_le, inside, adds.trans adds'⟩

/-- A value that is claimed differently goes to the conditional of its
partition. -/
theorem ends_inBranches (s : LoopScope) (mixed : ¬claims.Uniform s.iterations)
    (some : claims.isEmpty = false) (v : Value F) :
    Ends (place.inBranches s v (groups claims)) a fun p a' =>
      s.Places claims a.arena p a'.arena := by
  have key : partitionOf (parts (groups claims)) = claims.key := rfl
  have computes := Node.inner_of_computes (F := F)
  have writes (n : Node F) (kind : n.kind = .indexedWrite) : n.Inner := by simp [Node.Inner, kind]
  have results (n : Node F) (kind : n.kind = .branchResult) : n.Inner := by simp [Node.Inner, kind]
  refine (ends_mapM (s.moves_partWrite computes writes v) _).bind fun ws a₁ ⟨length, adds⟩ => ?_
  rw [key]
  cases found : s.skeletons.lookup claims.key with
  | some k =>
      refine (ends_inner (moves_extend results k ws)).bind fun _ a₂ adds' => ?_
      exact ends_pure (.kept mixed found (adds.trans adds'))
  | none =>
      have length : ws.length = claims.key.length := length.trans (List.length_map ..).symm
      have nonempty : claims.key ≠ [] := by
        obtain ⟨it, hit⟩ := Std.TreeMap.isEmpty_eq_false_iff_exists_mem.mp some
        rw [Std.TreeMap.mem_iff_isSome_getElem?, Option.isSome_iff_exists] at hit
        obtain ⟨c, hc⟩ := hit
        obtain ⟨p, hp, -⟩ := Claims.mem_partition_iff_key.mp
          (Claims.mem_partition.mpr ⟨it, c, hc, rfl⟩)
        exact List.ne_nil_of_mem hp
      refine (s.ends_newConditional nonempty length).bind fun k a₂ h => ?_
      obtain ⟨branches, fresh, inside, adds'⟩ := h
      exact ends_pure (.new mixed found branches (adds.size_le.trans fresh) inside
        (adds.trans adds'))

theorem ends_place (s : LoopScope) (some : claims.isEmpty = false) (v : Value F) :
    Ends (s.place claims v) a fun p a' => s.Places claims a.arena p a'.arena := by
  rw [place]
  split
  case isTrue => exact ends_throw.bind fun _ _ h => False.elim h
  case isFalse covered =>
      have inside (it : Nat) (hit : it ∈ claims) : it < s.iterations :=
        lt_of_covered (not_not.mp covered) hit
      have computes := Node.inner_of_computes (F := F)
      dsimp only
      split
      case h_1 count m single =>
          split
          case isTrue all =>
              refine (ends_inner (moves_repeated computes v count)).bind fun w a₁ adds => ?_
              refine (ends_inner (s.moves_detect m)).bind fun p a₂ adds' => ?_
              exact ends_pure (.everywhere ((uniform_iff inside single).mpr all)
                (adds.trans adds'))
          case isFalse part =>
              exact s.ends_inBranches (fun uniform => part ((uniform_iff inside single).mp uniform))
                some v
      case h_2 several =>
          refine s.ends_inBranches (fun uniform => ?_) some v
          obtain ⟨count, m, single⟩ := toList_groups_of_uniform uniform some
          exact several count m single

/-! ## Sequences of values -/

omit [Scalar F] in
/-- The end of the conditional that a value went to. -/
def Placed.endIf? : Placed F → Option NodeRef
  | .everywhere _ _ => none
  | .conditional endIf => some endIf

/-- A value that was placed: its claims, the conditional it went to, if any,
and the number of nodes of each kind that this recorded. -/
structure Placement where
  claims : Claims
  endIf? : Option NodeRef
  recorded : Kind → Nat

/-- A scope that has been opened, and has placed values for some claims since.
In between anything may be recorded, and results may be added to the loop. -/
inductive Placing (n : Nat) : LoopScope → Arena F → List Placement → Prop where
  | begin {loop : Nat} {a a' : Arena F} {s : LoopScope}
      (run : (LoopScope.begin loop n).run.run (some a) = (.ok s, some a')) : Placing n s a' []
  | place {s s' : LoopScope} {a a' : Arena F} {calls : List Placement} {claims : Claims}
      {v : Value F} {p : Placed F} (before : Placing n s a calls)
      (claimed : claims.isEmpty = false)
      (run : (s.place claims v).run.run (some a) = (.ok (s', p), some a')) :
      Placing n s' a' (calls ++ [⟨claims, p.endIf?, fun kind => a'.count kind - a.count kind⟩])
  | addResult {s : LoopScope} {a : Arena F} {calls : List Placement}
      (before : Placing n s a calls) (r : NodeRef) : Placing n (s.addResult r) a calls
  | recording {s : LoopScope} {a a' : Arena F} {calls : List Placement}
      (before : Placing n s a calls) (trace : a.Traces a') : Placing n s a' calls

/-- The values that went to a conditional. -/
def chained (calls : List Placement) : List Placement := calls.filter fun c => c.endIf?.isSome

/-- The partitions of the values that went to a conditional. -/
def partitions (calls : List Placement) : Finset (Finset (Finset Nat)) :=
  ((chained calls).map fun c => c.claims.partition).toFinset

/-- What holds of a scope that has placed some values: it keeps one
conditional for each key that has come up. -/
structure Shares (n : Nat) (s : LoopScope) (a : Arena F) (calls : List Placement) : Prop where
  iterations : s.iterations = n
  uniform {c : Placement} : c ∈ calls → (c.endIf? = none ↔ c.claims.Uniform n)
  keys : (s.skeletons.map Prod.fst).Nodup
  ends : (s.skeletons.map fun e => e.2.endIf).Nodup
  below {e : Partition × Skeleton} : e ∈ s.skeletons → e.2.endIf.index < a.size
  placed {c : Placement} {r : NodeRef} : c ∈ calls → c.endIf? = some r →
    ∃ k, (c.claims.key, k) ∈ s.skeletons ∧ k.endIf = r
  asked {e : Partition × Skeleton} : e ∈ s.skeletons → ∃ c ∈ chained calls, c.claims.key = e.1
  branches : s.branches = (s.skeletons.map fun e => e.1.length).sum
  reused : s.reused + s.skeletons.length = (chained calls).length
  opened : (calls.map fun c => c.recorded .startIf).sum = s.skeletons.length
  closed : (calls.map fun c => c.recorded .endIf).sum = s.skeletons.length

section

variable {a a' : Arena F} {s s' : LoopScope} {calls : List Placement} {p : Placed F}

omit [Scalar F]

theorem Shares.later (h : s.Shares n a calls) (le : a.size ≤ a'.size) : s.Shares n a' calls :=
  { h with below := fun he => (h.below he).trans_le le }

theorem chained_append_none {c : Placement} (h : c.endIf? = none) :
    chained (calls ++ [c]) = chained calls := by
  simp [chained, h]

theorem chained_append_some {c : Placement} {r : NodeRef} (h : c.endIf? = some r) :
    chained (calls ++ [c]) = chained calls ++ [c] := by
  simp [chained, h]

/-- A value that leaves the conditionals of the scope as they are. -/
theorem Shares.append (h : s.Shares n a calls) {c : Placement} {reused : Nat}
    (adds : a.Adds 0 0 a') (recorded : c.recorded = fun kind => a'.count kind - a.count kind)
    (uniform : c.endIf? = none ↔ c.claims.Uniform n)
    (placed : ∀ r, c.endIf? = some r → ∃ k, (c.claims.key, k) ∈ s.skeletons ∧ k.endIf = r)
    (counted : reused + s.skeletons.length = (chained (calls ++ [c])).length) :
    { s with reused }.Shares n a' (calls ++ [c]) where
  iterations := h.iterations
  uniform hc := by
    rcases List.mem_append.mp hc with hc | hc
    · exact h.uniform hc
    · exact List.mem_singleton.mp hc ▸ uniform
  keys := h.keys
  ends := h.ends
  below he := (h.below he).trans_le adds.size_le
  placed {c' r} hc hr := by
    rcases List.mem_append.mp hc with hc | hc
    · exact h.placed hc hr
    · cases List.mem_singleton.mp hc
      exact placed r hr
  asked he := by
    obtain ⟨c', hc', key⟩ := h.asked he
    refine ⟨c', ?_, key⟩
    rw [chained, List.filter_append]
    exact List.mem_append_left _ hc'
  branches := h.branches
  reused := counted
  opened := by simp [h.opened, recorded, adds.startIf]
  closed := by simp [h.closed, recorded, adds.endIf]

/-- Placing one more value. -/
theorem Shares.place (h : s.Shares n a calls) (step : s.Places claims a (s', p) a') :
    s'.Shares n a' (calls ++
      [⟨claims, p.endIf?, fun kind => a'.count kind - a.count kind⟩]) := by
  cases step with
  | everywhere uniform adds =>
      rw [h.iterations] at uniform
      refine h.append adds rfl (iff_of_true rfl uniform) (fun r hr => ?_) ?_
      · cases hr
      · rw [chained_append_none rfl]
        exact h.reused
  | @kept _ k mixed found adds =>
      rw [h.iterations] at mixed
      obtain ⟨l, l', eq, -⟩ := List.lookup_eq_some_iff.mp found
      have mem : (claims.key, k) ∈ s.skeletons := by simp [eq]
      refine h.append adds rfl (iff_of_false (by simp [Placed.endIf?]) mixed) (fun r hr => ?_) ?_
      · cases hr
        exact ⟨k, mem, rfl⟩
      · rw [chained_append_some rfl, List.length_append, ← h.reused, List.length_singleton]
        omega
  | @new _ k mixed missing branches fresh inside adds =>
      rw [h.iterations] at mixed
      have absent (e : Partition × Skeleton) (he : e ∈ s.skeletons) : e.1 ≠ claims.key := by
        have := List.lookup_eq_none_iff.mp missing e he
        exact Ne.symm (by simpa using this)
      have apart (e : Partition × Skeleton) (he : e ∈ s.skeletons) : e.2.endIf ≠ k.endIf := by
        intro eq
        have := h.below he
        rw [eq] at this
        omega
      refine ⟨h.iterations, fun hc => ?_, ?_, ?_, fun he => ?_, fun {c r} hc hr => ?_,
        fun he => ?_, ?_, ?_, ?_, ?_⟩
      · rcases List.mem_append.mp hc with hc | hc
        · exact h.uniform hc
        · cases List.mem_singleton.mp hc
          exact iff_of_false (by simp [Placed.endIf?]) mixed
      · rw [List.map_append, List.nodup_append]
        refine ⟨h.keys, List.nodup_singleton _, fun x hx y hy => ?_⟩
        obtain ⟨e, he, rfl⟩ := List.mem_map.mp hx
        exact List.mem_singleton.mp hy ▸ absent e he
      · rw [List.map_append, List.nodup_append]
        refine ⟨h.ends, List.nodup_singleton _, fun x hx y hy => ?_⟩
        obtain ⟨e, he, rfl⟩ := List.mem_map.mp hx
        exact List.mem_singleton.mp hy ▸ apart e he
      · rcases List.mem_append.mp he with he | he
        · exact (h.below he).trans_le adds.size_le
        · exact List.mem_singleton.mp he ▸ inside
      · rcases List.mem_append.mp hc with hc | hc
        · obtain ⟨k', mem, eq⟩ := h.placed hc hr
          exact ⟨k', List.mem_append_left _ mem, eq⟩
        · cases List.mem_singleton.mp hc
          cases hr
          exact ⟨k, List.mem_append_right _ (List.mem_singleton_self _), rfl⟩
      · rw [chained_append_some rfl]
        rcases List.mem_append.mp he with he | he
        · obtain ⟨c, hc, key⟩ := h.asked he
          exact ⟨c, List.mem_append_left _ hc, key⟩
        · cases List.mem_singleton.mp he
          exact ⟨_, List.mem_append_right _ (List.mem_singleton_self _), rfl⟩
      · simp [h.branches, branches]
      · rw [chained_append_some rfl, List.length_append, List.length_append, ← h.reused,
          List.length_singleton, List.length_singleton, Nat.add_assoc]
      · simp [h.opened, adds.startIf]
      · simp [h.closed, adds.endIf]

end

/-- A scope that has been opened has placed nothing. -/
theorem ends_beginEmpty (loop n : Nat) :
    Ends (LoopScope.begin (F := F) loop n) a fun s _ => ∃ start index,
      s = ⟨start, index, n, [], [], 0, 0⟩ := by
  refine (ends_pushCounted (by simp) _ _).bind fun start a₁ _ => ?_
  refine (ends_pushCounted (by simp) _ _).bind fun index a₂ _ => ?_
  exact ends_pure ⟨start, index, rfl⟩

variable {s : LoopScope} {a : Arena F} {calls : List Placement}

/-- A scope that has placed values keeps one conditional for each key. -/
theorem Placing.shares (h : Placing n s a calls) : s.Shares n a calls := by
  induction h with
  | begin run =>
      obtain ⟨_, ⟨⟩, -, start, index, rfl⟩ := ends_beginEmpty _ _ (a := ⟨_⟩) _ _ run
      exact ⟨rfl, by simp, by simp, by simp, by simp, by simp, by simp, rfl, rfl, rfl, rfl⟩
  | place before claimed run ih =>
      obtain ⟨_, ⟨⟩, -, step⟩ := ends_place (a := ⟨_⟩) _ claimed _ _ _ run
      exact ih.place step
  | addResult before r ih => exact { ih with }
  | recording before trace ih => exact ih.later trace.steps.continues.size_le

/-! ## One conditional for each partition -/

omit [Scalar F] in
/-- A scope keeps as many conditionals as there are partitions. -/
theorem Shares.card_partitions (h : s.Shares n a calls) :
    (partitions calls).card = s.skeletons.length ∧
      ∑ P ∈ partitions calls, P.card = (s.skeletons.map fun e => e.1.length).sum := by
  have image : partitions calls = (s.skeletons.map Prod.fst).toFinset.image Claims.setsOf := by
    ext P
    simp only [partitions, List.mem_toFinset, List.mem_map, Finset.mem_image]
    constructor
    · rintro ⟨c, hc, rfl⟩
      obtain ⟨mem, chain⟩ := List.mem_filter.mp hc
      obtain ⟨r, hr⟩ := Option.isSome_iff_exists.mp chain
      obtain ⟨k, kept, -⟩ := h.placed mem hr
      exact ⟨_, ⟨_, kept, rfl⟩, c.claims.setsOf_key⟩
    · rintro ⟨_, ⟨e, he, rfl⟩, rfl⟩
      obtain ⟨c, hc, key⟩ := h.asked he
      exact ⟨c, hc, key ▸ c.claims.setsOf_key.symm⟩
  have key {p : Partition} (hp : p ∈ (s.skeletons.map Prod.fst).toFinset) :
      ∃ claims : Claims, claims.key = p := by
    obtain ⟨e, he, rfl⟩ := List.mem_map.mp (List.mem_toFinset.mp hp)
    obtain ⟨c, -, key⟩ := h.asked he
    exact ⟨c.claims, key⟩
  have inj : Set.InjOn Claims.setsOf ((s.skeletons.map Prod.fst).toFinset : Set Partition) := by
    intro p hp q hq eq
    obtain ⟨claims, rfl⟩ := key hp
    obtain ⟨claims', rfl⟩ := key hq
    rw [Claims.setsOf_key, Claims.setsOf_key] at eq
    exact Claims.key_eq_iff.mpr eq
  rw [image]
  constructor
  · rw [Finset.card_image_of_injOn inj, List.toFinset_card_of_nodup h.keys, List.length_map]
  · have sizes (p : Partition) (hp : p ∈ (s.skeletons.map Prod.fst).toFinset) :
        (Claims.setsOf p).card = p.length := by
      obtain ⟨claims, rfl⟩ := key hp
      exact claims.card_setsOf_key
    rw [Finset.sum_image inj, Finset.sum_congr rfl sizes, List.sum_toFinset _ h.keys, List.map_map]
    rfl

/-- A value is written without a conditional exactly if all iterations claim
it, and all the same number of times.  Other values share a conditional
exactly if their claims divide the iterations into the same sets.  The scope
keeps one conditional for each division, each opened and closed by one node,
and counts its branches and the values that found their conditional there. -/
theorem Placing.shared (h : Placing n s a calls) :
    (∀ c ∈ calls, c.endIf? = none ↔ c.claims.Uniform n) ∧
    (∀ c ∈ calls, ∀ c' ∈ calls, ∀ r r', c.endIf? = some r → c'.endIf? = some r' →
      (r = r' ↔ c.claims.partition = c'.claims.partition)) ∧
    s.skeletons.length = (partitions calls).card ∧
    (calls.map fun c => c.recorded .startIf).sum = (partitions calls).card ∧
    (calls.map fun c => c.recorded .endIf).sum = (partitions calls).card ∧
    s.branches = ∑ P ∈ partitions calls, P.card ∧
    s.reused + (partitions calls).card = (chained calls).length := by
  have shares := h.shares
  obtain ⟨card, sizes⟩ := shares.card_partitions
  refine ⟨fun c hc => shares.uniform hc, fun c hc c' hc' r r' hr hr' => ?_, card.symm,
    card ▸ shares.opened, card ▸ shares.closed, sizes ▸ shares.branches, card ▸ shares.reused⟩
  obtain ⟨k, mem, rfl⟩ := shares.placed hc hr
  obtain ⟨k', mem', rfl⟩ := shares.placed hc' hr'
  rw [← Claims.key_eq_iff]
  constructor
  · intro eq
    exact congrArg Prod.fst (List.inj_on_of_nodup_map shares.ends mem mem' eq)
  · intro eq
    have same := List.inj_on_of_nodup_map shares.keys mem mem' eq
    exact congrArg (fun e : Partition × Skeleton => e.2.endIf) same

/-- A contribution that is claimed places its value. -/
theorem Placing.contribute {s' : LoopScope} {a' : Arena F} {claims : Claims} {v : Value F}
    (h : Placing n s a calls) (something : (v.isZero || claims.isEmpty) = false)
    (run : (s.contribute claims v).run.run (some a) = (.ok s', some a')) :
    ∃ calls', Placing n s' a' calls' ∧
      calls'.map Placement.claims = calls.map Placement.claims ++ [claims] := by
  have claimed := (Bool.or_eq_false_iff.mp something).2
  rw [LoopScope.contribute, if_neg (by simp [something])] at run
  obtain ⟨r, a₁, place, -⟩ := s.moves_place claims v a
  rw [Recording.run_bind_some place] at run
  cases r with
  | error e => cases run
  | ok out =>
      obtain ⟨s₁, placed⟩ := out
      have placing := h.place claimed place
      cases placed with
      | everywhere w p =>
          obtain ⟨written, a₂, write, -⟩ := s₁.moves_writeNode w p true a₁
          have trace : a₁.Traces a' := by
            have step := Traces.loop a₁ (.write s₁ w p true)
            rwa [Recording.runIn, LoopScope.Call.run, Recording.run_bind_some run] at step
          change (s₁.write w p true).run.run (some a₁) = _ at run
          rw [LoopScope.write, Recording.run_bind_some write] at run
          cases written with
          | error e => cases run
          | ok r =>
              cases run
              exact ⟨_, (placing.recording trace).addResult r, by simp⟩
      | conditional endIf =>
          cases run
          exact ⟨_, placing.addResult endIf, by simp⟩

/-- Claims of three iterations, the first of which claims twice. -/
def uneven (location : Nat) : Claims :=
  (((∅ : Claims).insert 0 ⟨location, 0, 2⟩).insert 1 ⟨location + 1, 0, 1⟩).insert 2
    ⟨location + 2, 0, 1⟩

theorem not_uniform_uneven (location : Nat) : ¬(uneven location).Uniform 3 := by
  rintro ⟨⟨count, same⟩, -⟩
  have first : 2 = count := same 0 ⟨location, 0, 2⟩ rfl
  have second : 1 = count := same 1 ⟨location + 1, 0, 1⟩ rfl
  omega

theorem toList_uneven (location : Nat) : (uneven location).toList =
    [(0, ⟨location, 0, 2⟩), (1, ⟨location + 1, 0, 1⟩), (2, ⟨location + 2, 0, 1⟩)] := rfl

theorem within_uneven {location : Nat} (small : location ≤ 8) :
    (uneven location).Within 3 11 := by
  intro it c hc
  rw [← Std.TreeMap.mem_toList_iff_getElem?_eq_some, toList_uneven] at hc
  simp only [List.mem_cons, List.not_mem_nil, or_false] at hc
  rcases hc with hc | hc | hc <;> cases hc <;> simp <;> omega

theorem placing_uneven : ∃ (s : LoopScope) (a : Arena ℚ) (calls : List Placement),
    Placing 3 s a calls ∧ calls.map Placement.claims = [uneven 5, uneven 8] := by
  obtain ⟨s₀, a₀, start, -, body⟩ := yields_begin (F := ℚ) .multiples true 0
    (by decide : 0 < 3) (by decide) (owned_empty 1)
  obtain ⟨s₁, a₁, run₁, -, c₁, body₁, -⟩ := body.ends_contribute (v := .const 1)
    (within_uneven (by decide : 5 ≤ 8)) (by decide) (amounts_multiples (.const 1) _)
  obtain ⟨s₂, a₂, run₂, -⟩ := body₁.ends_contribute (v := .const 1)
    (within_uneven (le_refl 8)) (by decide) (amounts_multiples (.const 1) _)
  obtain ⟨calls₁, first, claims₁⟩ := (Placing.begin start).contribute rfl run₁
  obtain ⟨calls₂, second, claims₂⟩ := first.contribute rfl run₂
  exact ⟨s₂, a₂, calls₂, second, by rw [claims₂, claims₁]; rfl⟩

/-- Two values with uneven claims share a conditional with two branches. -/
theorem shared_uneven : ∃ (s : LoopScope) (a : Arena ℚ) (calls : List Placement),
    Placing 3 s a calls ∧ calls.map Placement.claims = [uneven 5, uneven 8] ∧
      s.skeletons.length = 1 ∧ s.branches = 2 ∧ s.reused = 1 := by
  obtain ⟨s, a, calls, placing, claims⟩ := placing_uneven
  obtain ⟨uniform, -, skeletons, -, -, branches, reused⟩ := placing.shared
  have all : chained calls = calls := by
    refine List.filter_eq_self.mpr fun c hc => ?_
    have mem : c.claims ∈ calls.map Placement.claims := List.mem_map_of_mem hc
    have mixed : ¬c.claims.Uniform 3 := by
      rw [claims] at mem
      rcases List.mem_pair.mp mem with eq | eq <;> exact eq ▸ not_uniform_uneven _
    exact Option.isSome_iff_ne_none.mpr (mt (uniform c hc).mp mixed)
  have one : partitions calls = {{{0}, {1, 2}}} := by
    have sets : calls.map (fun c => c.claims.partition) =
        (calls.map Placement.claims).map Claims.partition := by
      rw [List.map_map]
      rfl
    rw [partitions, all, sets, claims]
    decide +kernel
  have count : calls.length = 2 := by simpa using congrArg List.length claims
  rw [one, Finset.card_singleton] at skeletons reused
  rw [one, Finset.sum_singleton] at branches
  rw [all, count] at reused
  exact ⟨s, a, calls, placing, claims, skeletons, branches, Nat.succ.inj reused⟩

end LoopScope

end LoopDiff
