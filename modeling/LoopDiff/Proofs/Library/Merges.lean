import LoopDiff.Proofs.Graph.Paths
import LoopDiff.Proofs.Library.Graphs

/-!
# LoopDiff.Proofs.Library.Merges

Outputs own their accumulations.

In a finished graph every accumulation belongs to one output.  No other output
holds it, and none leads to it but those that name that output, so adding a loop
to one output changes no other (`Slots.of_path`, `Sketch.keeps_addLoop`).  What is
accumulated is known from the course of the assembly (`Compiled.OwnsMerges`).
-/

namespace LoopDiff

open Arena Sketch

variable {F : Type} [Scalar F] {a : Sketch F}

/-! ## What outputs hold -/

namespace Slots

variable {start outputs : Outputs F} {ends : Nat → List NodeRef} {named : List (Nat × Nat)}
  {r s : NodeRef} {n m : Node F} {j k : Nat} (h : Slots start ends named outputs a)

include h

/-- A node that an output holds is one of the arena. -/
theorem exists_node (held : outputs[k]? = some (.node r)) : ∃ n, a.arena.node r = .ok n := by
  by_cases mirrored : k ∈ named.map Prod.fst
  · obtain ⟨⟨_, source⟩, mem, rfl⟩ := List.mem_map.mp mirrored
    obtain ⟨w, -, synonym⟩ := h.synonym mem held
    cases synonym with
    | node hr => exact ⟨_, hr⟩
  · obtain ⟨v, hv⟩ := h.exists_start held
    obtain ⟨n, hn, -⟩ := (h.slot mirrored hv held).low (h.low hv) r rfl
    exact ⟨n, hn⟩

/-- A node of the highest tier that an output holds is its accumulation, or it names
another output. -/
theorem of_held (held : outputs[k]? = some (.node r)) (hn : a.arena.node r = .ok n)
    (top : n.kind.tier = 3) :
    (k ∉ named.map Prod.fst ∧ ∃ v, start[k]? = some v ∧ ends k ≠ [] ∧
        n = ⟨.accumulate, v.kept ++ (ends k).map Value.node, [k], false⟩) ∨
      ∃ source t, (k, source) ∈ named ∧ outputs[source]? = some (.node t) ∧
        n = ⟨.synonym, [.node t], [], false⟩ := by
  by_cases mirrored : k ∈ named.map Prod.fst
  · obtain ⟨⟨_, source⟩, mem, rfl⟩ := List.mem_map.mp mirrored
    obtain ⟨w, hw, synonym⟩ := h.synonym mem held
    cases synonym with
    | @node t _ hr => exact .inr ⟨source, t, mem, hw, Except.ok.inj (hn.symm.trans hr)⟩
  · obtain ⟨v, hv⟩ := h.exists_start held
    obtain ⟨some, eq⟩ := (h.slot mirrored hv held).of_top (h.low hv) rfl hn top
    exact .inl ⟨mirrored, v, hv, some, eq⟩

/-- An accumulation is held by the output that it was recorded for, and by no
other. -/
theorem accumulation (hn : a.arena.node r = .ok n) (kind : n.kind = .accumulate) :
    ∃ k v, (∀ j : Nat, outputs[j]? = some (.node r) ↔ j = k) ∧ start[k]? = some v ∧
      ends k ≠ [] ∧ n = ⟨.accumulate, v.kept ++ (ends k).map Value.node, [k], false⟩ := by
  have top : n.kind.tier = 3 := by rw [kind]; rfl
  have recorded {j : Nat} (held : outputs[j]? = some (.node r)) : ∃ v, start[j]? = some v ∧
      ends j ≠ [] ∧ n = ⟨.accumulate, v.kept ++ (ends j).map Value.node, [j], false⟩ := by
    rcases h.of_held held hn top with ⟨-, found⟩ | ⟨_, _, -, -, rfl⟩
    · exact found
    · cases kind
  obtain ⟨k, held⟩ := h.owned (node_eq_ok_iff.mp hn).2 top
  rw [← eq_handle hn] at held
  obtain ⟨v, hv, some, eq⟩ := recorded held
  refine ⟨k, v, fun j => ⟨fun held' => ?_, fun here => here ▸ held⟩, hv, some, eq⟩
  obtain ⟨_, -, -, eq'⟩ := recorded held'
  exact List.singleton_inj.mp (congrArg Node.info (eq'.symm.trans eq))

variable (sources : ∀ e ∈ named, e.2 ∉ named.map Prod.fst)

include sources

/-- A node with an argument of the highest tier names the output that holds it. -/
theorem of_arg (hr : a.arena.node r = .ok n) (top : n.kind.tier = 3) (hs : a.arena.node s = .ok m)
    (arg : Value.node r ∈ m.args) : n.kind = .accumulate ∧ m.kind = .synonym ∧
      (∃ j : Nat, outputs[j]? = some (.node s)) ∧ ∀ j : Nat, outputs[j]? = some (.node s) →
        ∃ k, (j, k) ∈ named ∧ outputs[k]? = some (.node r) := by
  have at_ := (node_eq_ok_iff.mp hs).2
  have top' : m.kind.tier = 3 := by
    obtain ⟨-, n', hr', le⟩ := h.tiered _ _ at_ r arg
    cases hr'.symm.trans (node_eq_ok_iff.mp hr).2
    exact le_antisymm m.kind.tier_le (top ▸ le)
  have names {j : Nat} (held : outputs[j]? = some (.node s)) : m.kind = .synonym ∧
      ∃ k, (j, k) ∈ named ∧ outputs[k]? = some (.node r) := by
    rcases h.of_held held hs top' with ⟨-, v, hv, -, rfl⟩ | ⟨source, t, mem, ht, rfl⟩
    · -- what is accumulated is below the highest tier
      exfalso
      have low : ∀ w ∈ v.kept ++ (ends j).map Value.node, a.Low 2 w := by
        intro w hw
        rcases List.mem_append.mp hw with hw | hw
        · exact Value.of_mem_kept hw ▸ (h.low hv).mono (Nat.zero_le 2)
        · obtain ⟨loop, mem, rfl⟩ := List.mem_map.mp hw
          exact (h.closed mem).low
      obtain ⟨n', hr', le⟩ := low _ arg r rfl
      cases hr.symm.trans hr'
      omega
    · cases List.mem_singleton.mp arg
      exact ⟨rfl, source, mem, ht⟩
  obtain ⟨j, held⟩ := h.owned at_ top'
  rw [← eq_handle hs] at held
  obtain ⟨kind', k, mem, hk⟩ := names held
  refine ⟨?_, kind', ⟨j, held⟩, fun j hj => (names hj).2⟩
  rcases h.of_held hk hr top with ⟨-, _, -, -, rfl⟩ | ⟨_, _, mem', -⟩
  · rfl
  · exact absurd (List.mem_map_of_mem (f := Prod.fst) mem') (sources _ mem)

theorem of_edge {i : Nat} (hr : a.arena.node r = .ok n) (top : n.kind.tier = 3)
    (edge : a.arena.Edge i r.index) : ∃ m, a.arena.node (a.arena.handle i) = .ok m ∧
      n.kind = .accumulate ∧ m.kind = .synonym ∧
      ∀ j : Nat, outputs[j]? = some (.node (a.arena.handle i)) →
        ∃ k, (j, k) ∈ named ∧ outputs[k]? = some (.node r) := by
  obtain ⟨m, hm, arg⟩ := edge
  obtain ⟨r', arg, index⟩ := mem_argIndices.mp arg
  have eq : r' = r := by
    obtain ⟨arena, -⟩ := h.tiered _ _ hm r' arg
    exact (congrArg₂ NodeRef.mk arena index).trans (eq_handle hr).symm
  have hm' : a.arena.node (a.arena.handle i) = .ok m := node_eq rfl hm
  obtain ⟨kind, kind', -, names⟩ := h.of_arg sources hr top hm' (eq ▸ arg)
  exact ⟨m, hm', kind, kind', names⟩

/-- An output that leads to an accumulation holds it, or names the output that
does. -/
theorem of_path (hr : a.arena.node r = .ok n) (kind : n.kind = .accumulate)
    (held : outputs[k]? = some (.node r)) (hj : outputs[j]? = some (.node s))
    (path : a.arena.Path s.index r.index) : j = k ∨ (j, k) ∈ named := by
  obtain ⟨_, _, only, -⟩ := h.accumulation hr kind
  have same {i : Nat} (held' : outputs[i]? = some (.node r)) : i = k :=
    ((only _).mp held').trans ((only _).mp held).symm
  obtain ⟨m, hs⟩ := h.exists_node hj
  rcases path.cases_tail with eq | ⟨i, path, edge⟩
  · rw [eq_handle hs, ← eq, ← eq_handle hr] at hj
    exact .inl (same hj)
  · obtain ⟨m', hm', -, kind', names⟩ := h.of_edge sources hr (by rw [kind]; rfl) edge
    rcases path.cases_tail with rfl | ⟨i', -, edge'⟩
    · rw [eq_handle hs] at hj
      obtain ⟨k', mem, held'⟩ := names j hj
      exact .inr (same held' ▸ mem)
    · -- no node is over a synonym
      obtain ⟨-, -, kind'', -⟩ := h.of_edge sources hm' (by rw [kind']; rfl) edge'
      cases kind'.symm.trans kind''

end Slots

/-! ## Adding loops -/

namespace Sketch

/-- Recording a node changes no other. -/
theorem keeps_push (kind : Kind) (args : List (Value F)) (info : List Nat) :
    Ends (Recording.push kind args info) a fun _ a' => ∀ (i : Nat) (n : Node F),
      a.arena.nodes[i]? = some n → a'.arena.nodes[i]? = some n := by
  refine ends_reporting (ends_of_run (moves_push trivial) fun r a' run => ?_)
  rcases run_push kind args info a.arena with ⟨e, run'⟩ | ⟨-, ⟨-, i, -, -, run'⟩ | ⟨-, run'⟩⟩ <;>
    cases run.symm.trans run'
  · exact fun _ _ hn => hn
  · exact fun _ _ hn => getElem?_push_of_some hn _

/-- Adding a loop to an output changes no node but the accumulation that the output
holds. -/
theorem keeps_addLoop (v : Value F) (loop : NodeRef) (k : Nat) :
    Ends (addLoop v loop k) a fun _ a' => ∀ (i : Nat) (n : Node F), a.arena.nodes[i]? = some n →
      (∀ r m, v = .node r → a.arena.node r = .ok m → m.kind = .accumulate → i ≠ r.index) →
        a'.arena.nodes[i]? = some n := by
  cases v with
  | const x =>
      simp only [addLoop, pure_bind]
      refine Worlds.Ends.bind (keeps_push _ _ _) ?_
      exact fun _ _ keep => ends_pure fun i n hn _ => keep _ _ hn
  | node r =>
      simp only [addLoop, pure_bind]
      refine Worlds.Ends.bind ends_look ?_
      rintro m _ ⟨hm, rfl⟩
      by_cases kind : m.kind = .accumulate
      · rw [if_pos kind]
        refine Worlds.Ends.bind ends_append ?_
        rintro _ _ ⟨-, rfl⟩
        refine ends_pure fun i n hn other => ?_
        rw [node_extended, hn, if_neg (other r m rfl hm kind).symm]
        simp
      · rw [if_neg kind]
        refine Worlds.Ends.bind (keeps_push _ _ _) ?_
        exact fun _ _ keep => ends_pure fun i n hn _ => keep _ _ hn

end Sketch

/-! ## Graphs -/

/-- The accumulations of a graph belong to its outputs, given the course of its
assembly. -/
structure Compiled.OwnsMerges (c : Compiled F) (p : Assembler) (course : Course F) : Prop where
  /-- Before any loop an output is a number or a node of the lowest tier. -/
  outside {k : Nat} {r : NodeRef} : course.before[k]? = some (.node r) →
    ∃ n, c.arena.node r = .ok n ∧ n.kind.tier = 0
  /-- The loops that are added to an output are different ones. -/
  nodup (k : Nat) : (course.ends k).Nodup
  loopEnd {k : Nat} {r : NodeRef} : r ∈ course.ends k →
    ∃ n, c.arena.node r = .ok n ∧ n.kind = .loopEnd
  /-- An accumulation is for one output, which alone holds it: over what the output
  was before any loop, unless that is zero, and the loops that are added to it. -/
  owned {r : NodeRef} {n : Node F} : c.arena.node r = .ok n → n.kind = .accumulate →
    ∃ k v, (∀ j : Nat, c.outputs[j]? = some (.node r) ↔ j = k) ∧ n.info = [k] ∧
      course.before[k]? = some v ∧ course.ends k ≠ [] ∧
      n.args = v.kept ++ (course.ends k).map Value.node
  /-- It is an argument of those nodes only that name its output. -/
  named {r s : NodeRef} {n n' : Node F} : c.arena.node r = .ok n → n.kind = .accumulate →
    c.arena.node s = .ok n' → Value.node r ∈ n'.args → n'.kind = .synonym ∧
      ∃ j k : Nat, p.Mirrors j k ∧ c.outputs[j]? = some (.node s) ∧ c.outputs[k]? = some (.node r)
  /-- An output to which loops are added is an accumulation. -/
  merged {k : Nat} {v : Value F} : (∀ source, ¬p.Mirrors k source) → course.ends k ≠ [] →
    c.outputs[k]? = some v → ∃ r n, v = .node r ∧ c.arena.node r = .ok n ∧ n.kind = .accumulate
  /-- Any other output is what it was before any loop. -/
  plain {k : Nat} {v : Value F} : (∀ source, ¬p.Mirrors k source) → course.ends k = [] →
    c.outputs[k]? = some v → course.before[k]? = some v
  /-- Adding a loop to an output changes no node that another output leads to. -/
  apart {k : Nat} {v w : Value F} {loop : NodeRef} {a : Arena F} : c.outputs[k]? = some v →
    (addLoop v loop k).runIn c.arena = (.ok w, a) → ∀ (j i : Nat) (r : NodeRef) (n : Node F),
      j ≠ k → ¬p.Mirrors j k → c.outputs[j]? = some (.node r) → c.arena.Path r.index i →
        c.arena.nodes[i]? = some n → a.nodes[i]? = some n

theorem Assembly.Finished.ownsMerges {m : Model F} {p : Assembler} {asm : Assembly F}
    {stages : Stages F} {c : Compiled F} {course : Course F} (sketched : stages.Sketched asm m p)
    (h : Finished stages m p c.outputs.toArray course ⟨c.arena⟩) : c.OwnsMerges p course := by
  have sources : ∀ e ∈ stages.synonyms, e.2 ∉ stages.synonyms.map Prod.fst :=
    fun _ => sketched.source_free
  constructor
  case outside =>
    intro k r hr
    obtain ⟨n, hn, low⟩ := h.slots.low hr r rfl
    exact ⟨n, hn, Nat.le_zero.mp low⟩
  case nodup => exact fun k => h.closed.nodup.sublist (Closing.ends_sublist _ k)
  case loopEnd => exact h.slots.closed
  case owned =>
    intro r n hn kind
    obtain ⟨k, v, only, hv, some, rfl⟩ := h.slots.accumulation hn kind
    exact ⟨k, v, by simpa using only, rfl, hv, some, rfl⟩
  case named =>
    intro r s n n' hn kind hn' arg
    obtain ⟨-, kind', ⟨j, hj⟩, names⟩ := h.slots.of_arg sources hn (by rw [kind]; rfl) hn' arg
    obtain ⟨k, mem, hk⟩ := names j hj
    exact ⟨kind', j, k, sketched.mirrors.mp mem, by simpa using hj, by simpa using hk⟩
  case merged =>
    intro k v none some hv
    obtain ⟨s, -, slot⟩ := h.exists_slot (sketched.not_named none) (by simpa using hv)
    generalize course.ends k = ends at some slot
    cases slot with
    | plain => exact absurd rfl some
    | merged _ hr => exact ⟨_, _, rfl, hr, rfl⟩
  case plain =>
    intro k v none empty hv
    obtain ⟨s, hs, slot⟩ := h.exists_slot (sketched.not_named none) (by simpa using hv)
    rw [empty] at slot
    cases slot with
    | plain => exact hs
    | merged some _ => exact absurd rfl some
  case apart =>
    intro k v w loop a hv run j i r n ne mirrors hr path hn
    refine of_runIn (a := ⟨c.arena⟩) (keeps_addLoop v loop k) run i n hn ?_
    rintro t m rfl ht kind rfl
    rcases h.slots.of_path sources ht kind (by simpa using hv) (by simpa using hr) path with eq | mem
    · exact ne eq
    · exact mirrors (sketched.mirrors.mp mem)

namespace Model

variable {m : Model F}

/-- In the graphs of an accepted model, be it for the dependents or for any elements
of the derivatives, every accumulation belongs to one output.  Its location is that of
the output, and its arguments are what the output was before any loop, unless that is
zero, and the ends of the loops that are added to this output, each once.  No other
output holds it, and only an output that names this one leads to it, so that adding a
loop to an output changes no other. -/
theorem Accepted.owns_merges (accepted : m.Accepted) (p : Assembler) :
    (m.Supports p → ∃ c : Compiled F, m.assemble p.weighted (fun asm => p.outputs asm) = .ok c) ∧
    ∀ c : Compiled F, m.assemble p.weighted (fun asm => p.outputs asm) = .ok c → ∃ course,
      (m.stagedAssembly p).runIn (.empty 1) = (.ok (c.outputs, course), c.arena) ∧
      course.closings.length = m.loops.length ∧ c.OwnsMerges p course := by
  refine ⟨accepted.exists_assemble, fun c assembled => ?_⟩
  obtain ⟨course, run⟩ := assemble_eq_ok_iff.mp assembled
  obtain ⟨asm, stages, sketched, finished⟩ := accepted.finished run
  exact ⟨course, run, finished.length, finished.ownsMerges sketched⟩

/-- Of two elements that mirror each other the lower one holds the accumulation. -/
theorem owns_merges_products : ∃ (c : Compiled ℚ) (r : NodeRef) (n : Node ℚ),
    (products ℚ).assemble true (fun asm => asm.hessian [(2, 0), (0, 2)]) = .ok c ∧
      c.arena.node r = .ok n ∧ n.kind = .accumulate ∧
      ∀ j : Nat, c.outputs[j]? = some (.node r) ↔ j = 0 := by
  let p : Assembler := .hessian [(2, 0), (0, 2)]
  obtain ⟨assembles, owns⟩ := (accepted_products (F := ℚ)).owns_merges p
  obtain ⟨c, assembled⟩ := assembles ⟨exponents_products ℚ _, fits_products ℚ (by decide),
    by decide, by decide, by decide, by decide⟩
  obtain ⟨course, run, -, owned⟩ := owns c assembled
  have added : (((products ℚ).stagedAssembly p).runIn (.empty 1)).1.toOption.map
      (fun r => (r.1.length, (r.2.ends 0).length)) = some (2, 1) := by
    decide +kernel
  obtain ⟨size, some⟩ : c.outputs.length = 2 ∧ (course.ends 0).length = 1 := by
    simpa [run, Except.toOption] using added
  have lower (source : Nat) : ¬p.Mirrors 0 source := by simp [p, Assembler.Mirrors]
  obtain ⟨r, n, held, hn, kind⟩ := owned.merged lower
    (List.ne_nil_of_length_eq_add_one some) (List.getElem?_eq_getElem (by omega))
  obtain ⟨k, -, only, -⟩ := owned.owned hn kind
  have here : 0 = k := (only 0).mp (by simp [← held])
  exact ⟨c, r, n, assembled, hn, kind, here ▸ only⟩

end Model

end LoopDiff
