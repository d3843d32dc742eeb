import LoopDiff.Proofs.Graph.Execution
import LoopDiff.Proofs.Loop.Recordings
import LoopDiff.Proofs.Tape.Draft

/-!
# LoopDiff.Proofs.Tape.Lowering

Lowering preserves meaning.

The tape of a graph gives, at any numbers, what the graph evaluates to when
its inputs read these numbers (`Arena.Traced.lowering`).  Inputs and live
nodes are lowered in order of creation, so the arguments of a node are placed
before the node is reached, and a draft tracks the graph all along.

Whether lowering succeeds is a matter of kinds alone.  Every part of it
either succeeds or reports an error, and which of the two is the case is
known beforehand (`Decides`), so no part of it ever crashes.
-/

namespace LoopDiff

variable {F α β : Type}

/-! ## Outcomes -/

/-- A computation that succeeds under a condition, with a result that
satisfies `Q`, and reports an error otherwise. -/
def Decides (c : Except Failure α) (good : Prop) (Q : α → Prop) : Prop :=
  (good ∧ ∃ x, c = .ok x ∧ Q x) ∨ (¬good ∧ ∃ e, c = .error (.error e))

theorem decides_ok {x : α} {good : Prop} {Q : α → Prop} (h : good) (hx : Q x) :
    Decides (.ok x) good Q :=
  .inl ⟨h, x, rfl, hx⟩

namespace Decides

variable {c : Except Failure α} {good good' : Prop} {P : α → Prop}

theorem bind {f : α → Except Failure β} {Q : β → Prop} (hc : Decides c good P)
    (hf : ∀ x, good → P x → Decides (f x) good' Q) : Decides (c >>= f) (good ∧ good') Q := by
  rcases hc with ⟨h, x, rfl, hx⟩ | ⟨h, e, rfl⟩
  · rcases hf x h hx with ⟨h', run⟩ | ⟨h', run⟩
    · exact .inl ⟨⟨h, h'⟩, run⟩
    · exact .inr ⟨fun both => h' both.2, run⟩
  · exact .inr ⟨fun both => h both.1, e, rfl⟩

/-- What follows may be something that never fails. -/
theorem andThen {f : α → Except Failure β} {Q : β → Prop} (hc : Decides c good P)
    (hf : ∀ x, good → P x → ∃ y, f x = .ok y ∧ Q y) : Decides (c >>= f) good Q := by
  rcases hc with ⟨h, x, rfl, hx⟩ | ⟨h, e, rfl⟩
  · exact .inl ⟨h, hf x h hx⟩
  · exact .inr ⟨h, e, rfl⟩

theorem congr (hc : Decides c good P) (iff : good ↔ good') : Decides c good' P :=
  propext iff ▸ hc

theorem mono {Q : α → Prop} (hc : Decides c good P) (h : ∀ x, P x → Q x) : Decides c good Q :=
  hc.imp_left fun ⟨hg, x, run, hx⟩ => ⟨hg, x, run, h x hx⟩

end Decides

/-- A loop of checks. -/
theorem decides_forM {f : α → Except Failure PUnit} {good : α → Prop}
    (step : ∀ x, Decides (f x) (good x) fun _ => True) (xs : List α) :
    Decides (xs.forM f) (∀ x ∈ xs, good x) fun _ => True := by
  induction xs with
  | nil => exact decides_ok (by simp) trivial
  | cons x xs ih =>
      exact ((step x).bind fun _ _ _ => ih).congr (List.forall_mem_cons ..).symm

/-- A loop that changes a state keeps an invariant between the elements done
so far and the state. -/
theorem decides_forM_state {σ : Type} {f : α → StateT σ (Except Failure) PUnit} {xs : List α}
    {s : σ} (good : α → Prop) (I : List α → σ → Prop) (init : I [] s)
    (step : ∀ done x rest s, xs = done ++ x :: rest → I done s →
      Decides ((f x).run s) (good x) fun r => I (done ++ [x]) r.2) :
    Decides ((xs.forM f).run s) (∀ x ∈ xs, good x) fun r => I xs r.2 := by
  suffices h : ∀ rest done s, xs = done ++ rest → I done s →
      Decides ((rest.forM f).run s) (∀ x ∈ rest, good x) fun r => I xs r.2 from
    h xs [] s rfl init
  intro rest
  induction rest with
  | nil =>
      intro done s hxs hI
      rw [List.append_nil] at hxs
      exact decides_ok (by simp) (hxs ▸ hI)
  | cons x rest ih =>
      intro done s hxs hI
      refine ((step done x rest s hxs hI).bind fun r _ hr => ?_).congr
        (List.forall_mem_cons ..).symm
      exact ih (done ++ [x]) r.2 (by simp [hxs]) hr

/-! ## Inputs and outputs -/

variable [Scalar F]

namespace Arena

/-- A handle of an input of the arena. -/
def IsIndependent (a : Arena F) (r : NodeRef) : Prop :=
  ∃ n, a.node r = .ok n ∧ n.kind = .independent

/-- A node that some output depends on. -/
def Needed (a : Arena F) (outputs : List (Value F)) (i : Nat) : Prop :=
  ∃ r, .node r ∈ outputs ∧ a.Path r.index i

/-- A node of a kind that a tape has an entry for, and an input only if it is
listed. -/
def Expressible (a : Arena F) (inputs : List NodeRef) (i : Nat) (n : Node F) : Prop :=
  n.kind.isStraight = true ∧ (n.kind = .independent → a.handle i ∈ inputs)

end Arena

/-- A problem that is the graph `a` with the numbers `xs` for the inputs. -/
structure Problem.Reads (p : Problem F) (a : Arena F) (inputs : List NodeRef) (xs : List F) :
    Prop where
  length_eq : xs.length = inputs.length
  id_eq : p.arena.id = a.id
  node {i : Nat} {n : Node F} : a.nodes[i]? = some n → n.kind ≠ .independent →
    p.arena.nodes[i]? = some n
  input {j : Nat} {r : NodeRef} {x : F} : inputs[j]? = some r → xs[j]? = some x →
    a.IsIndependent r → p.known? none r.index = some (x, false)

/-! ## The parts of lowering -/

namespace Draft

open Arena

variable {p : Problem F} {xs : List F} {a : Arena F} {inputs : List NodeRef}

omit [Scalar F] in
theorem run_lift_bind {c : Except Failure α} {f : α → M F β} {x : α} (hc : c = .ok x)
    (d : Draft F) : ((liftM c : M F α) >>= f).run d = (f x).run d := by
  subst hc
  rfl

omit [Scalar F] in
/-- An input is the next entry. -/
theorem run_input {r : NodeRef} {n : Node F} {d : Draft F} {tape : Tape F}
    (hn : a.node r = .ok n) (kind : n.kind = .independent) (next : d.tape.pushInput = .ok tape) :
    (Draft.input a r).run d =
      .ok ((), ⟨tape, d.places.setIfInBounds r.index (some d.tape.size)⟩) := by
  rw [Draft.input, run_lift_bind hn]
  dsimp only
  rw [if_neg (not_not.mpr kind)]
  change (liftM d.tape.pushInput >>= fun tape => (do
    set (⟨tape, d.places⟩ : Draft F)
    place r.index d.tape.size : M F Unit)).run d = _
  rw [run_lift_bind next]
  rfl

omit [Scalar F] in
/-- A node that is no input is not listed as one. -/
theorem refuses_input {r : NodeRef} (d : Draft F) (h : ¬a.IsIndependent r) :
    ∃ e, (Draft.input a r).run d = .error (.error e) := by
  cases hn : a.node r with
  | error e =>
      obtain ⟨cause, rfl⟩ : ∃ cause, e = .error cause := by
        rw [Arena.node] at hn
        split at hn
        case h_1 =>
            split at hn <;> cases hn
            exact ⟨_, rfl⟩
        case h_2 =>
            cases hn
            exact ⟨_, rfl⟩
      exact ⟨cause, by rw [Draft.input, hn]; rfl⟩
  | ok n =>
      have kind : n.kind ≠ .independent := fun kind => h ⟨n, hn, kind⟩
      rw [Draft.input, run_lift_bind hn]
      dsimp only
      rw [if_pos kind]
      exact ⟨_, rfl⟩

/-- An input is placed at the next entry, which has its number. -/
theorem decides_input (reads : p.Reads a inputs xs) {r : NodeRef} {d : Draft F} {values : Array F}
    (tracks : Tracks p xs d values) (listed : inputs[d.tape.size]? = some r)
    (only : d.tape.inputCount = d.tape.size) (size : d.places.size = a.size) :
    Decides ((Draft.input a r).run d) (a.IsIndependent r) fun out => ∃ values',
      Tracks p xs out.2 values' ∧ out.2.tape.inputCount = d.tape.size + 1 ∧
        out.2.tape.size = d.tape.size + 1 ∧ out.2.places.size = a.size ∧
        ∀ i, out.2.Placed i ↔ a.handle i = r ∨ d.Placed i := by
  by_cases isInput : a.IsIndependent r
  case neg => exact .inr ⟨isInput, refuses_input d isInput⟩
  obtain ⟨n, hn, kind⟩ := isInput
  have lt : d.tape.size < xs.length := by
    rw [reads.length_eq]
    exact (List.getElem?_eq_some_iff.mp listed).1
  obtain ⟨x, hx⟩ : ∃ x, xs[d.tape.size]? = some x := ⟨_, List.getElem?_eq_getElem lt⟩
  obtain ⟨tape, next, count, size', tracks'⟩ := tracks.pushInput only hx
  have entry : (values.push x)[d.tape.size]? = some x := by
    rw [← tracks.size_eq, Array.getElem?_push_size]
  refine .inl ⟨⟨n, hn, kind⟩, _, run_input hn kind next, _,
    tracks'.set entry (reads.input listed hx ⟨n, hn, kind⟩), count, size', by simpa using size,
    fun i => ?_⟩
  obtain ⟨arena, hr⟩ := node_eq_ok_iff.mp hn
  have inside : r.index < d.places.size := size ▸ (Array.getElem?_eq_some_iff.mp hr).1
  rw [placed_set (d := ⟨tape, d.places⟩) r.index d.tape.size i inside]
  have same : r.index = i ↔ a.handle i = r := by
    cases r
    cases arena
    simp [Arena.handle, eq_comm]
  rw [same]
  rfl

/-- Listed inputs are placed if they are inputs. -/
theorem decides_inputs (reads : p.Reads a inputs xs) :
    Decides ((inputs.forM (Draft.input a)).run ⟨Tape.empty, Array.replicate a.size none⟩)
      (∀ r ∈ inputs, a.IsIndependent r) fun out => ∃ values, Tracks p xs out.2 values ∧
        out.2.tape.inputCount = inputs.length ∧ out.2.places.size = a.size ∧
        ∀ i, out.2.Placed i ↔ a.handle i ∈ inputs := by
  refine (decides_forM_state a.IsIndependent (fun done d => ∃ values,
    Tracks p xs d values ∧ d.tape.inputCount = done.length ∧ d.tape.size = done.length ∧
      d.places.size = a.size ∧ ∀ i, d.Placed i ↔ a.handle i ∈ done) ?_ ?_).mono ?_
  · refine ⟨#[], ⟨Tape.wellFormed_empty, rfl, rfl, fun {i e} hi => ?_⟩, rfl, rfl, by simp,
      fun i => ?_⟩
    · rw [Array.getElem?_replicate] at hi
      split at hi <;> cases hi
    · simp [Placed, Array.getElem?_replicate]
  · rintro done r rest d split ⟨values, tracks, count, size, places, placed⟩
    have listed : inputs[d.tape.size]? = some r := by simp [split, size]
    refine (decides_input reads tracks listed (count.trans size.symm) places).mono ?_
    rintro out ⟨values', tracks', count', size', places', placed'⟩
    refine ⟨values', tracks', by simpa [size] using count', by simpa [size] using size', places',
      fun i => ?_⟩
    rw [placed', List.mem_append, List.mem_singleton, or_comm]
    exact or_congr_left (placed i)
  · rintro out ⟨values, tracks, count, -, places, placed⟩
    exact ⟨values, tracks, count, places, placed⟩

/-- A node that a tape has no entry for, or an input, is not lowered. -/
theorem refuses_lower {i : Nat} {n : Node F} (d : Draft F)
    (h : n.kind = .independent ∨ n.kind.isStraight = false) :
    ∃ e, (Draft.lower i n).run d = .error (.error e) := by
  rw [Draft.lower]
  cases kind : n.kind <;> first
    | exact ⟨_, rfl⟩
    | simp [kind, Kind.isStraight] at h

variable {outputs : List (Value F)} {live : Array Bool}
  (powi_one : ∀ x : F, Scalar.powi x 1 = x)
  (powi_neg_one : ∀ x : F, Scalar.powi x (-1) = Scalar.unary .recip x)
  (owned : a.Owned) (ordered : a.Ordered) (reads : p.Reads a inputs xs)
  (independent : ∀ r ∈ inputs, a.IsIndependent r)
  (needed : ∀ i, live.getD i false = true ↔ a.Needed outputs i)

include powi_one powi_neg_one owned ordered reads independent needed

omit independent needed in
/-- A node that the outputs depend on gets an entry, once those before it are
placed. -/
theorem decides_lower {i : Nat} {n : Node F} (hn : a.nodes[i]? = some n) {d : Draft F}
    {values : Array F} (tracks : Tracks p xs d values) (wanted : a.Needed outputs i)
    (before : ∀ j < i, a.Needed outputs j → d.Placed j) (size : d.places.size = a.size)
    (unlisted : a.handle i ∉ inputs) :
    Decides ((lower i n >>= place i : M F Unit).run d) (a.Expressible inputs i n) fun out =>
      ∃ values', Tracks p xs out.2 values' ∧ out.2.tape.inputCount = d.tape.inputCount ∧
        out.2.places.size = a.size ∧ ∀ j, out.2.Placed j ↔ i = j ∨ d.Placed j := by
  by_cases expressible : a.Expressible inputs i n
  case neg =>
      have other : n.kind = .independent ∨ n.kind.isStraight = false := by
        by_contra h
        obtain ⟨op, straight⟩ := not_or.mp h
        exact expressible ⟨by simpa using straight, fun kind => absurd kind op⟩
      obtain ⟨e, run⟩ := refuses_lower (i := i) d other
      refine .inr ⟨expressible, e, ?_⟩
      rw [StateT.run_bind, run]
      rfl
  case pos =>
      obtain ⟨straight, listed⟩ := expressible
      have op : n.kind ≠ .independent := fun kind => unlisted (listed kind)
      have computes : n.Computes := (ordered.node hn straight).resolve_right fun h => op h.1
      -- the arguments come before the node and are needed as well
      have known (v : Value F) (hv : v ∈ n.args) : Places p d v := by
        rintro r rfl
        refine ⟨(owns_iff.mp (owned i n hn r hv)).1.trans reads.id_eq.symm, ?_⟩
        obtain ⟨root, hroot, path⟩ := wanted
        exact before r.index (ordered.before hn straight hv)
          ⟨root, hroot, path.tail ⟨n, hn, mem_argIndices.mpr ⟨r, hv, rfl⟩⟩⟩
      obtain ⟨x, number, e, d', values', run, tracks', follows, he⟩ :=
        tracks.lower powi_one powi_neg_one (reads.node hn op) computes
          (fun r hr => ordered.before hn straight hr) known
      have lt : i < d'.places.size := by
        rw [follows.places_eq, size]
        exact (Array.getElem?_eq_some_iff.mp hn).1
      refine .inl ⟨⟨straight, listed⟩,
        ((), { d' with places := d'.places.setIfInBounds i (some e) }), ?_, values',
        tracks'.set he number, follows.inputCount_eq, ?_, fun j => ?_⟩
      · rw [StateT.run_bind, run]
        rfl
      · simpa [follows.places_eq] using size
      · rw [placed_set i e j lt, Placed, Placed, follows.places_eq]

/-- A node is placed if the outputs depend on it, once those before it are. -/
theorem decides_node {i : Nat} {n : Node F} (hn : a.nodes[i]? = some n) {d : Draft F}
    {values : Array F} (tracks : Tracks p xs d values)
    (before : ∀ j < i, a.Needed outputs j → d.Placed j) (size : d.places.size = a.size)
    (here : d.Placed i ↔ a.handle i ∈ inputs) :
    Decides ((do
        if live.getD i false && ((← get).places.getD i none).isNone then
          place i (← lower i n) : M F Unit).run d)
      (a.Needed outputs i → a.Expressible inputs i n) fun out => ∃ values',
        Tracks p xs out.2 values' ∧ out.2.tape.inputCount = d.tape.inputCount ∧
        out.2.places.size = a.size ∧ (∀ j, j ≠ i → (out.2.Placed j ↔ d.Placed j)) ∧
        (a.Needed outputs i → out.2.Placed i) := by
  have lt : i < d.places.size := size ▸ (Array.getElem?_eq_some_iff.mp hn).1
  have missing : (d.places.getD i none).isNone = true ↔ ¬d.Placed i := by
    rw [Array.getD_eq_getD_getElem?, Placed, Array.getElem?_eq_getElem lt, Option.getD_some]
    cases d.places[i] <;> simp
  change Decides ((if live.getD i false && (d.places.getD i none).isNone then
    lower i n >>= place i else pure () : M F Unit).run d) _ _
  by_cases wanted : a.Needed outputs i
  case neg =>
      rw [if_neg fun h => wanted ((needed i).mp (Bool.and_eq_true_iff.mp h).1)]
      exact decides_ok (fun h => absurd h wanted)
        ⟨values, tracks, rfl, size, fun _ _ => Iff.rfl, fun h => absurd h wanted⟩
  by_cases placed : d.Placed i
  case pos =>
      rw [if_neg fun h => missing.mp (Bool.and_eq_true_iff.mp h).2 placed]
      have listed := here.mp placed
      obtain ⟨m, hm, kind⟩ := independent _ listed
      obtain ⟨-, hm⟩ := node_eq_ok_iff.mp hm
      cases hn.symm.trans hm
      exact decides_ok (fun _ => ⟨by rw [kind]; rfl, fun _ => listed⟩)
        ⟨values, tracks, rfl, size, fun _ _ => Iff.rfl, fun _ => placed⟩
  rw [if_pos (by rw [(needed i).mpr wanted, missing.mpr placed]; rfl)]
  refine ((decides_lower powi_one powi_neg_one owned ordered reads hn tracks wanted before size
    (mt here.mpr placed)).congr (imp_iff_right wanted).symm).mono ?_
  rintro out ⟨values', tracks', count, size', placed'⟩
  exact ⟨values', tracks', count, size', fun j ne => (placed' j).trans (or_iff_right ne.symm),
    fun _ => (placed' i).mpr (.inl rfl)⟩

/-- The nodes that the outputs depend on are placed. -/
theorem decides_nodes {d : Draft F} {values : Array F} (tracks : Tracks p xs d values)
    (size : d.places.size = a.size) (placed : ∀ i, d.Placed i ↔ a.handle i ∈ inputs) :
    Decides ((Draft.nodes a live).run d)
      (∀ i n, a.nodes[i]? = some n → a.Needed outputs i → a.Expressible inputs i n)
      fun out => ∃ values', Tracks p xs out.2 values' ∧
        out.2.tape.inputCount = d.tape.inputCount ∧
        ∀ i < a.size, a.Needed outputs i → out.2.Placed i := by
  have all : (∀ x ∈ a.nodes.toList.zipIdx, a.Needed outputs x.2 → a.Expressible inputs x.2 x.1) ↔
      ∀ i n, a.nodes[i]? = some n → a.Needed outputs i → a.Expressible inputs i n := by
    simp only [Prod.forall, List.mk_mem_zipIdx_iff_getElem?, Array.getElem?_toList]
    exact forall_comm
  refine ((decides_forM_state
    (fun x : Node F × Nat => a.Needed outputs x.2 → a.Expressible inputs x.2 x.1)
    (fun done d' => ∃ values', Tracks p xs d' values' ∧
      d'.tape.inputCount = d.tape.inputCount ∧ d'.places.size = a.size ∧
      (∀ i < done.length, a.Needed outputs i → d'.Placed i) ∧
      ∀ i ≥ done.length, (d'.Placed i ↔ a.handle i ∈ inputs)) ?_ ?_).congr all).mono ?_
  · exact ⟨values, tracks, rfl, size, fun i h => absurd h (Nat.not_lt_zero i), fun i _ => placed i⟩
  · rintro done ⟨n, i⟩ rest d' split ⟨values', tracks', count, size', before, rest_iff⟩
    have at_ : a.nodes.toList.zipIdx[done.length]? = some (n, i) := by rw [split]; simp
    obtain ⟨rfl, hn⟩ : i = done.length ∧ a.nodes[i]? = some n := by
      rw [List.getElem?_zipIdx] at at_
      obtain ⟨m, hm, eq⟩ := Option.map_eq_some_iff.mp at_
      simp only [Prod.mk.injEq, Nat.zero_add] at eq
      obtain ⟨rfl, rfl⟩ := eq
      exact ⟨rfl, by simpa using hm⟩
    refine (decides_node powi_one powi_neg_one owned ordered reads independent needed hn tracks'
      before size' (rest_iff _ le_rfl)).mono ?_
    rintro out ⟨values'', tracks'', count', size'', others, this⟩
    refine ⟨values'', tracks'', count'.trans count, size'', fun j lt need => ?_, fun j ge => ?_⟩
    · rw [List.length_append, List.length_singleton] at lt
      rcases Nat.lt_succ_iff_lt_or_eq.mp lt with lt | rfl
      · exact (others j lt.ne).mpr (before j lt need)
      · exact this need
    · rw [List.length_append, List.length_singleton] at ge
      exact (others j (by omega)).trans (rest_iff j (by omega))
  · rintro out ⟨values', tracks', count, -, placed', -⟩
    refine ⟨values', tracks', count, fun i lt => placed' i ?_⟩
    rwa [List.length_zipIdx, Array.length_toList]

end Draft

/-! ## Lowering -/

namespace Arena

/-- Why the tape of some outputs cannot be made: a handle of something that is
not in the arena, an input that is none, or an output that depends on an
input that is not listed or on a node of a loop or a branch. -/
inductive Unlowerable (a : Arena F) (inputs : List NodeRef) (outputs : List (Value F)) : Prop where
  | output (r : NodeRef) (output : .node r ∈ outputs) (foreign : a.owns r = false)
  | input (r : NodeRef) (input : r ∈ inputs) (foreign : a.owns r = false)
  | notIndependent (r : NodeRef) (n : Node F) (input : r ∈ inputs) (found : a.node r = .ok n)
      (kind : n.kind ≠ .independent)
  | unlisted (i : Nat) (n : Node F) (needed : a.Needed outputs i) (found : a.nodes[i]? = some n)
      (kind : n.kind = .independent) (unlisted : a.handle i ∉ inputs)
  | inexpressible (i : Nat) (n : Node F) (needed : a.Needed outputs i)
      (found : a.nodes[i]? = some n) (kind : n.kind.isStraight = false)

variable {a : Arena F} {inputs : List NodeRef} {outputs : List (Value F)}

omit [Scalar F] in
theorem node_of_owns {r : NodeRef} (own : a.owns r = true) : ∃ n, a.node r = .ok n := by
  obtain ⟨arena, lt⟩ := owns_iff.mp own
  exact ⟨_, node_eq arena (Array.getElem?_eq_getElem lt)⟩

omit [Scalar F] in
/-- Without a reason every part of lowering goes well. -/
theorem not_unlowerable : ¬a.Unlowerable inputs outputs ↔
    (∀ v ∈ outputs, ∀ r, v = .node r → a.owns r = true) ∧
      (∀ r ∈ inputs, a.IsIndependent r) ∧
      ∀ i n, a.nodes[i]? = some n → a.Needed outputs i → a.Expressible inputs i n := by
  constructor
  · intro h
    refine ⟨?_, fun r hr => ?_, fun i n hn need => ⟨?_, fun kind => ?_⟩⟩
    · rintro v hv r rfl
      by_contra foreign
      exact h (.output r hv (by simpa using foreign))
    · obtain ⟨n, hn⟩ : ∃ n, a.node r = .ok n := by
        refine node_of_owns ?_
        by_contra foreign
        exact h (.input r hr (by simpa using foreign))
      refine ⟨n, hn, ?_⟩
      by_contra kind
      exact h (.notIndependent r n hr hn kind)
    · by_contra kind
      exact h (.inexpressible i n need hn (by simpa using kind))
    · by_contra unlisted
      exact h (.unlisted i n need hn kind unlisted)
  · rintro ⟨own, independent, expressible⟩ h
    cases h with
    | output r output foreign =>
        rw [own _ output r rfl] at foreign
        cases foreign
    | input r input foreign =>
        obtain ⟨n, hn, -⟩ := independent r input
        obtain ⟨arena, hn⟩ := node_eq_ok_iff.mp hn
        rw [owns_iff.mpr ⟨arena, (Array.getElem?_eq_some_iff.mp hn).1⟩] at foreign
        cases foreign
    | notIndependent r n input found kind =>
        obtain ⟨m, hm, independent⟩ := independent r input
        cases found.symm.trans hm
        exact kind independent
    | unlisted i n needed found kind unlisted =>
        exact unlisted ((expressible i n found needed).2 kind)
    | inexpressible i n needed found kind =>
        rw [(expressible i n found needed).1] at kind
        cases kind

/-- What is asked of the tape of some outputs: it is well formed, and gives the
numbers of the outputs. -/
structure LoweredTo (p : Problem F) (xs : List F) (outputs : List (Value F)) (t : Tape F) :
    Prop where
  wf : t.WellFormed
  count : t.inputCount = xs.length
  eval : ∃ ys, (t.eval xs : Except Failure (List F)) = .ok ys ∧
    List.Forall₂ (fun v y => p.value? none v = some (y, false)) outputs ys

omit [Scalar F] in
theorem mapM_fetch_eq_ok {values : Array F} {es : List Nat} {ys : List F}
    (h : List.Forall₂ (fun e y => values[e]? = some y) es ys) :
    es.mapM (fun e => fetch values e) = (.ok ys : Except Failure (List F)) := by
  induction h with
  | nil => rfl
  | cons hy _ ih =>
      rw [List.mapM_cons, fetch, hy, ih]
      rfl

/-- The tape of outputs that have entries. -/
theorem loweredTo {p : Problem F} {xs : List F} {d : Draft F} {values : Array F}
    (tracks : Draft.Tracks p xs d values) (count : d.tape.inputCount = xs.length) {es : List Nat}
    {ys : List F} (hes : List.Forall₂ (fun e y => values[e]? = some y) es ys)
    (hys : List.Forall₂ (fun v y => p.value? none v = some (y, false)) outputs ys) :
    LoweredTo p xs outputs { d.tape with outputs := es } := by
  refine ⟨tracks.wf.withOutputs fun e he => ?_, count, ys, ?_, hys⟩
  · obtain ⟨k, lt, rfl⟩ := List.mem_iff_getElem.mp he
    obtain ⟨y, -, hy⟩ := exists_right_of_forall₂ hes (List.getElem?_eq_getElem lt)
    exact tracks.lt hy
  · rw [Tape.eval, Tape.forwardSweep, Tape.checkInputs, checkSize, if_pos count]
    refine (bind_of_ok tracks.runs _).trans ?_
    exact mapM_fetch_eq_ok hes

omit [Scalar F] in
theorem decides_checkValue (v : Value F) :
    Decides (a.checkValue v) (∀ r, v = .node r → a.owns r = true) fun _ => True := by
  cases v with
  | const x => exact decides_ok nofun trivial
  | node r =>
      cases own : a.owns r with
      | true =>
          rw [checkValue, check, if_pos own]
          exact decides_ok (by rintro _ ⟨⟩; exact own) trivial
      | false =>
          rw [checkValue, check, if_neg (by simp [own])]
          exact .inr ⟨fun h => Bool.false_ne_true (own.symm.trans (h r rfl)), _, rfl⟩

/-- Lowering succeeds unless there is a reason that it cannot, and reports an
error otherwise. -/
theorem decides_ofArena (powi_one : ∀ x : F, Scalar.powi x 1 = x)
    (powi_neg_one : ∀ x : F, Scalar.powi x (-1) = Scalar.unary .recip x) (owned : a.Owned)
    (ordered : a.Ordered) {p : Problem F} {xs : List F} (reads : p.Reads a inputs xs) :
    Decides (Tape.ofArena a inputs outputs) (¬a.Unlowerable inputs outputs)
      (LoweredTo p xs outputs) := by
  refine Decides.congr ?_ not_unlowerable.symm
  rw [Tape.ofArena]
  refine (decides_forM decides_checkValue outputs).bind fun _ own _ => ?_
  have inside (r : NodeRef) (hr : r ∈ outputs.filterMap Value.node?) : r.index < a.size :=
    (owns_iff.mp (own _ (Value.mem_nodes.mp hr) r rfl)).2
  obtain ⟨live, run, -, needed⟩ := exists_ok_of_yields (owned.yields_reachable inside)
  simp only [Value.mem_nodes] at needed
  rw [bind_of_ok run]
  simp only [StateT.run_bind, bind_assoc]
  refine (Draft.decides_inputs reads).bind fun out independent h => ?_
  obtain ⟨values, tracks, count, size, placed⟩ := h
  refine (Draft.decides_nodes powi_one powi_neg_one owned ordered reads independent needed
    tracks size placed).andThen fun out' _ h => ?_
  obtain ⟨values', tracks', count', placed'⟩ := h
  have known (v : Value F) (hv : v ∈ outputs) : Draft.Places p out'.2 v := by
    rintro r rfl
    obtain ⟨arena, lt⟩ := owns_iff.mp (own _ hv r rfl)
    exact ⟨arena.trans reads.id_eq.symm, placed' r.index lt ⟨r, hv, .refl⟩⟩
  obtain ⟨es, ys, d, values'', run, tracks'', follows, hes, hys⟩ := tracks'.outputs known
  rw [run]
  refine ⟨_, rfl, loweredTo tracks'' ?_ hes hys⟩
  rw [follows.inputCount_eq, count', count, reads.length_eq]

/-! ## Readings -/

/-- The arena with the listed inputs as the positions of one array. -/
def relabelled (a : Arena F) (inputs : List NodeRef) : Arena F :=
  { a with nodes := a.nodes.mapIdx fun i n =>
    if n.kind = .independent ∧ a.handle i ∈ inputs then
      { n with info := [0, inputs.idxOf (a.handle i)] }
    else n }

/-- The input arrays have the numbers `xs` for the listed inputs. -/
def Feeds (a : Arena F) (inputs : List NodeRef) (xs : List F) (arrays : List (List F)) : Prop :=
  ∀ (j : Nat) (r : NodeRef) (x : F), inputs[j]? = some r → xs[j]? = some x →
    ∃ n array position column, a.node r = .ok n ∧ n.info = [array, position] ∧
      arrays[array]? = some column ∧ column[position]? = some x

/-- The number of an input. -/
theorem known?_of_independent {p : Problem F} {i : Nat} {n : Node F} {array position : Nat} {x : F}
    (hn : p.arena.nodes[i]? = some n) (kind : n.kind = .independent)
    (info : n.info = [array, position]) (hx : p.input? array position = some x) :
    p.known? none i = some (x, false) := by
  have noArgs : n.valueArgs = [] := by simp only [Node.valueArgs, kind]
  refine Problem.known?_eq_some_iff.mpr ⟨n, [], hn, by simp [noArgs], by simp [noArgs], ?_, ?_⟩
  · simpa [Node.result?, kind, info] using hx
  · simp [Node.readsIteration, kind]

theorem Feeds.reads {xs : List F} {arrays : List (List F)} (h : a.Feeds inputs xs arrays)
    (length_eq : xs.length = inputs.length) :
    Problem.Reads ⟨a, arrays.map List.toArray⟩ a inputs xs := by
  refine ⟨length_eq, rfl, fun hn _ => hn, fun {j r x} hr hx ⟨n, hn, kind⟩ => ?_⟩
  obtain ⟨m, array, position, column, hm, info, hcolumn, hx⟩ := h j r x hr hx
  cases hn.symm.trans hm
  refine known?_of_independent (node_eq_ok_iff.mp hn).2 kind info ?_
  simp [Problem.input?, hcolumn, hx]

theorem reads_relabelled {xs : List F} (distinct : inputs.Nodup)
    (length_eq : xs.length = inputs.length) :
    Problem.Reads ⟨a.relabelled inputs, [xs].map List.toArray⟩ a inputs xs := by
  refine ⟨length_eq, rfl, fun {i n} hn op => ?_, fun {j r x} hr hx ⟨n, hn, kind⟩ => ?_⟩
  · rw [relabelled, Array.getElem?_mapIdx, hn, Option.map_some, if_neg fun h => op h.1]
  · obtain ⟨arena, hn⟩ := node_eq_ok_iff.mp hn
    have handle : a.handle r.index = r := Problem.handle_eq (p := ⟨a, []⟩) arena
    obtain ⟨lt, at_⟩ := List.getElem?_eq_some_iff.mp hr
    have position : inputs.idxOf (a.handle r.index) = j := by
      rw [handle, ← at_, distinct.idxOf_getElem]
    have listed : a.handle r.index ∈ inputs := by rw [handle]; exact List.mem_of_getElem? hr
    refine known?_of_independent (n := { n with info := [0, j] }) ?_ kind rfl ?_
    · rw [relabelled, Array.getElem?_mapIdx, hn, Option.map_some, if_pos ⟨kind, listed⟩, position]
    · simpa [Problem.input?] using hx

theorem LoweredTo.evaluate {xs : List F} {t : Tape F} {a' : Arena F} {arrays : List (List F)}
    (h : LoweredTo ⟨a', arrays.map List.toArray⟩ xs outputs t) :
    ∃ ys, (t.eval xs : Except Failure (List F)) = .ok ys ∧ a'.evaluate outputs arrays = .ok ys := by
  obtain ⟨ys, run, hys⟩ := h.eval
  exact ⟨ys, run, evaluate_eq (hys.imp fun v y hy => Problem.output?_of_value? hy)⟩

/-- The tape of a recorded graph.  It can be made unless there is a reason
that it cannot, it is well formed, and it gives at any numbers what the
outputs evaluate to when the inputs read these numbers: when the inputs are
made positions of one array, and just as well in the graph as it is, for
arrays that have these numbers for the inputs. -/
theorem Traced.lowering (h : a.Traced) (distinct : inputs.Nodup)
    (powi_one : ∀ x : F, Scalar.powi x 1 = x)
    (powi_neg_one : ∀ x : F, Scalar.powi x (-1) = Scalar.unary .recip x)
    (outputs : List (Value F)) :
    ((∃ e, Tape.ofArena a inputs outputs = .error (.error e)) ↔ a.Unlowerable inputs outputs) ∧
      (∀ cause, Tape.ofArena a inputs outputs ≠ .error (.crash cause)) ∧
      ∀ t, Tape.ofArena a inputs outputs = .ok t → t.WellFormed ∧ t.inputCount = inputs.length ∧
        ∀ xs : List F, xs.length = inputs.length →
          ∃ ys, (t.eval xs : Except Failure (List F)) = .ok ys ∧
            (a.relabelled inputs).evaluate outputs [xs] = .ok ys ∧
            ∀ arrays, a.Feeds inputs xs arrays → a.evaluate outputs arrays = .ok ys := by
  have decides {p : Problem F} {xs : List F} (reads : p.Reads a inputs xs) :
      Decides (Tape.ofArena a inputs outputs) (¬a.Unlowerable inputs outputs)
        (LoweredTo p xs outputs) :=
    decides_ofArena powi_one powi_neg_one h.owned h.ordered reads
  have zeros : (List.replicate inputs.length (Scalar.zero : F)).length = inputs.length :=
    List.length_replicate
  -- one reading tells whether there is a tape
  have outcome := decides (reads_relabelled distinct zeros)
  have lowered {p : Problem F} {xs : List F} (reads : p.Reads a inputs xs) {t : Tape F}
      (run : Tape.ofArena a inputs outputs = .ok t) : LoweredTo p xs outputs t := by
    rcases decides reads with ⟨-, t', run', lowered⟩ | ⟨-, e, run'⟩
    · cases run.symm.trans run'
      exact lowered
    · cases run.symm.trans run'
  refine ⟨⟨fun ⟨e, run⟩ => ?_, fun reason => ?_⟩, fun cause run => ?_, fun t run => ?_⟩
  · rcases outcome with ⟨-, t, run', -⟩ | ⟨reason, -⟩
    · cases run.symm.trans run'
    · exact not_not.mp reason
  · rcases outcome with ⟨none, -⟩ | ⟨-, e, run⟩
    · exact absurd reason none
    · exact ⟨e, run⟩
  · rcases outcome with ⟨-, t, run', -⟩ | ⟨-, e, run'⟩ <;> cases run.symm.trans run'
  · have first := lowered (reads_relabelled distinct zeros) run
    refine ⟨first.wf, first.count.trans zeros, fun xs len => ?_⟩
    obtain ⟨ys, eval, relabelled⟩ := (lowered (reads_relabelled distinct len) run).evaluate
    refine ⟨ys, eval, relabelled, fun arrays feeds => ?_⟩
    obtain ⟨zs, eval', evaluated⟩ := (lowered (feeds.reads len) run).evaluate
    cases eval.symm.trans eval'
    exact evaluated

/-- An input to which `2` is added in place and which the sum is divided by. -/
def quotient : Arena ℚ :=
  ⟨1, #[⟨.independent, [], [0, 0], true⟩, ⟨.compound .add, [.node ⟨1, 0⟩, .const 2], [], true⟩,
    ⟨.compound .div, [.node ⟨1, 1⟩, .node ⟨1, 0⟩], [], false⟩], #[]⟩

theorem traced_quotient : quotient.Traced := by
  let input : Arena ℚ := ((newIndependent 0 0).run.run (empty 1)).2
  let sum : Arena ℚ :=
    ((Operation.compound .add (.node ⟨1, 0⟩) (.const 2)).record.run.run input).2
  have result : ((Operation.compound .div (.node ⟨1, 1⟩) (.node ⟨1, 0⟩)).record.run.run sum).2 =
    quotient := rfl
  have steps : Relation.ReflTransGen Traces (empty 1) sum :=
    (Relation.ReflTransGen.single (.independent _ 0 0)).tail (.operation input _)
  exact ⟨1, result ▸ steps.tail (.operation sum _)⟩

/-- The quotient at `4`. -/
theorem lowering_quotient : ∃ t, Tape.ofArena quotient [⟨1, 0⟩] [.node ⟨1, 2⟩] = .ok t ∧
    t.WellFormed ∧ (t.eval [4] : Except Failure (List ℚ)) = .ok [3 / 2] ∧
    quotient.evaluate [.node ⟨1, 2⟩] [[4]] = .ok [3 / 2] := by
  have distinct : ([⟨1, 0⟩] : List NodeRef).Nodup := by decide
  have possible : ¬quotient.Unlowerable [⟨1, 0⟩] [.node ⟨1, 2⟩] := by
    refine not_unlowerable.mpr ⟨?_, ?_, fun i n hn _ => ?_⟩
    · rintro v hv r rfl
      cases List.mem_singleton.mp hv
      rfl
    · rintro r hr
      cases List.mem_singleton.mp hr
      exact ⟨_, rfl, rfl⟩
    · match i, hn with
      | 0, hn =>
          cases hn
          exact ⟨rfl, fun _ => List.mem_singleton.mpr rfl⟩
      | 1, hn | 2, hn =>
          cases hn
          exact ⟨rfl, nofun⟩
  obtain ⟨refused, noCrash, made⟩ := traced_quotient.lowering distinct (fun x => zpow_one x)
    (fun x => zpow_neg_one x) [.node ⟨1, 2⟩]
  cases run : Tape.ofArena quotient [⟨1, 0⟩] [.node ⟨1, 2⟩] with
  | error e =>
      cases e with
      | error cause => exact absurd (refused.mp ⟨cause, run⟩) possible
      | crash cause => exact absurd run (noCrash cause)
  | ok t =>
      obtain ⟨wf, -, value⟩ := made t run
      obtain ⟨ys, eval, -, evaluate⟩ := value [4] rfl
      have feeds : quotient.Feeds [⟨1, 0⟩] [4] [[4]] := by
        intro j r x hr hx
        match j, hr, hx with
        | 0, hr, hx =>
            cases hr
            exact ⟨_, 0, 0, _, rfl, rfl, rfl, hx⟩
      have result : quotient.evaluate [.node ⟨1, 2⟩] [[4]] = .ok [3 / 2] := by decide +kernel
      have same := (evaluate [[4]] feeds).symm.trans result
      exact ⟨t, rfl, wf, eval.trans same, result⟩

end Arena

end LoopDiff
