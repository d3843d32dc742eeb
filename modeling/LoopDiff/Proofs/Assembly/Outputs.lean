import LoopDiff.Assembly.Basic
import LoopDiff.Proofs.Graph.Execution
import LoopDiff.Proofs.Loop.Scope
import LoopDiff.Proofs.Maps

/-!
# LoopDiff.Proofs.Assembly.Outputs

The outputs of an assembly and the sums they stand for.

An output is a value, or an accumulation of an earlier value and of loops
(`Arena.Holds`).  Adding a loop to an output adds what the streams of the
loop send to the location of the output, and leaves the other outputs as
they are: an accumulation is made for one location, which its node names.
-/

namespace LoopDiff

open Std (TreeMap)

variable {F R : Type} [Scalar F] [Elementary R] [Reading F R] {inputs : List (Array F)}
  {n location : Nat} {add : Bool}

namespace Arena

variable {a a' : Arena F} {v : Value F} {y : R}

/-- What an argument adds to the accumulation for a location.  An argument
other than a loop comes before the position of the accumulation. -/
inductive Summand (a : Arena F) (inputs : List (Array F)) (i location : Nat) : Value F → R → Prop
  | earlier {v : Value F} {y : R} : a.Means inputs none v y → (∀ r, v = .node r → r.index < i) →
      Summand a inputs i location v y
  | loop {n : Nat} {add : Bool} {loop : NodeRef} {emitted : List (NodeRef × List (Stream R))} :
      a.Loops (.numbers inputs) n add loop emitted → Settles add n (emitted.flatMap Prod.snd) →
      Summand a inputs i location (.node loop) (sent n (emitted.flatMap Prod.snd) location)

/-- The output at a location stands for `y`. -/
inductive Holds (a : Arena F) (inputs : List (Array F)) (location : Nat) : Value F → R → Prop
  | plain {v : Value F} {y : R} : a.Means inputs none v y → Holds a inputs location v y
  | accumulation {r : NodeRef} {m : Node F} {ys : List R} : a.node r = .ok m →
      m.kind = .accumulate → m.info = [location] →
      List.Forall₂ (a.Summand inputs r.index location) m.args ys →
      Holds a inputs location (.node r) ys.sum

/-! ## What stays -/

theorem Summand.keep {i : Nat} (h : a.Summand inputs i location v y)
    (keeps : a.Keeps LoopKind a') : a'.Summand inputs i location v y := by
  cases h with
  | earlier means before =>
      refine .earlier (means.keep (fun i k tier => ?_) keeps) before
      exact loopKind_of_not_appendable (Kind.not_appendable_of_tier tier)
  | loop loops settles => exact .loop (loops.keep keeps) settles

/-- The nodes that stay when the accumulation for a location changes. -/
def Beside (a : Arena F) (location i : Nat) (_ : Kind) : Prop :=
  ∀ m, a.nodes[i]? = some m → m.kind = .accumulate → m.info ≠ [location]

omit [Scalar F] in
theorem loopKind_of_beside (keeps : a.Keeps (a.Beside location) a') : a.Keeps LoopKind a' := by
  refine keeps.of_nodes fun i m hm kind m' hm' kind' => ?_
  rw [hm] at hm'
  cases hm'
  exact absurd kind' kind

theorem Holds.keep {other : Nat} (h : a.Holds inputs location v y) (ne : location ≠ other)
    (keeps : a.Keeps (a.Beside other) a') : a'.Holds inputs location v y := by
  have keeps' := loopKind_of_beside keeps
  cases h with
  | plain means =>
      refine .plain (means.keep (fun i k tier => ?_) keeps')
      exact loopKind_of_not_appendable (Kind.not_appendable_of_tier tier)
  | @accumulation r m ys hm kind info summands =>
      refine .accumulation (keeps.node_eq hm fun m' hm' _ eq => ne ?_) kind info
        (summands.imp fun v y h => h.keep keeps')
      rw [(node_eq_ok_iff.mp hm).2] at hm'
      cases hm'
      exact (List.singleton_inj.mp (info.symm.trans eq))

theorem Holds.extend (h : a.Holds inputs location v y) (le : a ≤ a') :
    a'.Holds inputs location v y :=
  h.keep (Nat.succ_ne_self location).symm (keeps_of_le le)

/-! ## Values -/

theorem Summand.value {i : Nat} (h : a.Summand inputs i location v y) :
    ∃ x, Problem.summand? ⟨a, inputs⟩ i location v = some x ∧ embed x = y := by
  cases h with
  | earlier means before =>
      obtain ⟨x, varies, hx, eq⟩ := means
      refine ⟨x, ?_, eq⟩
      cases v with
      | const z =>
          cases hx
          rfl
      | node r =>
          obtain ⟨arena, m, hm, tier⟩ := Means.node (r := y) ⟨x, varies, hx, eq⟩
          rw [Problem.value?, if_pos arena] at hx
          cases Problem.varies_of_outside hx
          refine Problem.summand?_eq_some_iff.mpr ⟨m, node_eq arena hm, ?_⟩
          rw [if_neg (by rintro kind; rw [kind] at tier; cases tier)]
          exact ⟨before r rfl, hx⟩
  | @loop n add loop emitted loops settles =>
      obtain ⟨acc, hacc, eq⟩ := Problem.accumulator_eq loops settles
      obtain ⟨m, _, hm, kind, -⟩ := loops.node
      refine ⟨acc.getD location Scalar.zero, ?_, eq location⟩
      refine Problem.summand?_eq_some_iff.mpr ⟨m, hm, ?_⟩
      rw [if_pos kind]
      exact ⟨acc, hacc, rfl⟩

theorem embed_foldl_add (xs : List F) (x : F) :
    (embed (xs.foldl (fun sum x => Scalar.binary .add sum x) x) : R) =
      embed x + (xs.map embed).sum := by
  induction xs generalizing x with
  | nil => simp
  | cons z xs ih =>
      rw [List.foldl_cons, ih, Reading.embed_binary, List.map_cons, List.sum_cons, ← add_assoc]
      rfl

/-- The number of an output that is a node. -/
theorem Holds.proper {r : NodeRef} (h : a.Holds inputs location (.node r) y) : ∃ m x,
    a.node r = .ok m ∧ m.kind ≠ .synonym ∧ Problem.proper? ⟨a, inputs⟩ r.index = some x ∧
      embed x = y := by
  cases h with
  | plain means =>
      obtain ⟨arena, m, hm, tier⟩ := means.node
      obtain ⟨x, varies, hx, eq⟩ := means
      rw [Problem.value?, if_pos arena] at hx
      refine ⟨m, x, node_eq arena hm, ?_, ?_, eq⟩
      · rintro kind
        rw [kind] at tier
        cases tier
      · simp only [Problem.proper?, hm, Option.bind_eq_bind, Option.bind_some]
        rw [if_neg (by rintro kind; rw [kind] at tier; cases tier), hx, Option.map_some]
  | @accumulation _ m ys hm kind info summands =>
      obtain ⟨xs, hxs, eq⟩ : ∃ xs, List.Forall₂ (fun v x =>
          Problem.summand? ⟨a, inputs⟩ r.index location v = some x) m.args xs ∧
          xs.map embed = ys := by
        clear info hm
        generalize m.args = args at summands
        induction summands with
        | nil => exact ⟨[], .nil, rfl⟩
        | cons h _ ih =>
            obtain ⟨xs, hxs, eq⟩ := ih
            obtain ⟨x, hx, eq'⟩ := h.value
            exact ⟨x :: xs, .cons hx hxs, by rw [List.map_cons, eq, eq']⟩
      refine ⟨m, xs.foldl (fun sum x => Scalar.binary .add sum x) Scalar.zero, hm, ?_, ?_, ?_⟩
      · rw [kind]
        exact Kind.noConfusion
      · simp only [Problem.proper?, (node_eq_ok_iff.mp hm).2, Option.bind_eq_bind,
          Option.bind_some, kind, if_true, Problem.sum?, info, List.getElem?_cons_zero]
        rw [mapM_eq_some_iff.mpr hxs, Option.bind_some]
      · rw [embed_foldl_add, Embeds.embed_zero, zero_add, eq]

/-- The number of an output. -/
theorem Holds.value (h : a.Holds inputs location v y) :
    ∃ x, Problem.output? ⟨a, inputs⟩ v = some x ∧ embed x = y := by
  cases v with
  | const z =>
      cases h with
      | plain means =>
          obtain ⟨x, varies, hx, eq⟩ := means
          cases hx
          exact ⟨z, rfl, eq⟩
  | node r =>
      obtain ⟨m, x, hm, kind, hx, eq⟩ := h.proper
      obtain ⟨arena, hm⟩ := node_eq_ok_iff.mp hm
      refine ⟨x, ?_, eq⟩
      rw [Problem.output?, if_pos arena, Problem.fixed?, hm]
      simp only [Option.bind_eq_bind, Option.bind_some]
      split
      case h_1 eq _ => exact absurd eq kind
      case h_2 => exact hx

/-- The number of a synonym of an output. -/
theorem Holds.synonym {r s : NodeRef} {m : Node F} (hm : a.node r = .ok m)
    (kind : m.kind = .synonym) (args : m.args = [.node s]) (before : s.index < r.index)
    (h : a.Holds inputs location (.node s) y) :
    ∃ x, Problem.output? ⟨a, inputs⟩ (.node r) = some x ∧ embed x = y := by
  obtain ⟨ms, x, hms, -, hx, eq⟩ := h.proper
  obtain ⟨arena, hm⟩ := node_eq_ok_iff.mp hm
  refine ⟨x, ?_, eq⟩
  rw [Problem.output?, if_pos arena, Problem.fixed?, hm]
  simp only [Option.bind_eq_bind, Option.bind_some, kind, args]
  rw [if_pos ⟨(node_eq_ok_iff.mp hms).1, before⟩, hx]

end Arena

/-! ## Adding loops -/

open Arena

variable {a : Arena F} {loop : NodeRef} {emitted : List (NodeRef × List (Stream R))}

/-- An output that is no accumulation yet. -/
theorem ends_accumulate {output : Value F} {y : R} (means : a.Means inputs none output y)
    (loops : a.Loops (.numbers inputs) n add loop emitted)
    (settles : Settles add n (emitted.flatMap Prod.snd)) :
    Ends (do
      let earlier := if output.isZero then [] else [output]
      return .node (← Recording.push .accumulate (earlier ++ [.node loop]) [location]) :
        Recording F (Value F)) a fun v a' =>
      a'.Holds inputs location v (y + sent n (emitted.flatMap Prod.snd) location) ∧
        a.Keeps (a.Beside location) a' := by
  obtain ⟨m, _, hm, kind, -⟩ := loops.node
  have fits : a.Fits .accumulate [.node loop] := fits_node hm (by rw [kind]; decide)
  have holds {args : List (Value F)} {ys : List R} {a' : Arena F} {r : NodeRef} (le : a ≤ a')
      (index : r.index = a.size)
      (hr : a'.node r = .ok ⟨.accumulate, args ++ [.node loop], [location], false⟩)
      (hargs : List.Forall₂ (fun v y => a.Means inputs none v y) args ys) :
      a'.Holds inputs location (.node r)
        (ys.sum + sent n (emitted.flatMap Prod.snd) location) := by
    have total : (ys ++ [sent n (emitted.flatMap Prod.snd) location]).sum =
        ys.sum + sent n (emitted.flatMap Prod.snd) location := by
      rw [List.sum_append, List.sum_singleton]
    rw [← total]
    refine .accumulation hr rfl rfl (List.rel_append (hargs.imp fun v y means => ?_) ?_)
    · refine .earlier (means.extend le) ?_
      rintro s rfl
      obtain ⟨-, ms, hs, -⟩ := means.node
      exact index ▸ (Array.getElem?_eq_some_iff.mp hs).1
    · exact .cons (.loop (loops.keep (keeps_of_le le)) settles) .nil
  by_cases zero : output.isZero = true
  · simp only [zero, if_true]
    refine Worlds.Ends.bind (yields_push_new (by simp) fits) ?_
    rintro r a' ⟨le, index, hr, -⟩
    refine ends_pure ⟨?_, keeps_of_le le⟩
    have single : a'.Holds inputs location (.node r)
        ([].sum + sent n (emitted.flatMap Prod.snd) location) := holds le index hr .nil
    rwa [means.isZero zero]
  · simp only [zero]
    refine Worlds.Ends.bind (yields_push_new (by simp) (means.fits.cons fits)) ?_
    rintro r a' ⟨le, index, hr, -⟩
    refine ends_pure ⟨?_, keeps_of_le le⟩
    have both : a'.Holds inputs location (.node r)
        ([y].sum + sent n (emitted.flatMap Prod.snd) location) :=
      holds le index hr (.cons means .nil)
    rwa [List.sum_singleton] at both

/-- Adding a loop to an output. -/
theorem ends_addLoop {output : Value F} {y : R} (h : a.Holds inputs location output y)
    (tiered : a.Tiered) (loops : a.Loops (.numbers inputs) n add loop emitted)
    (settles : Settles add n (emitted.flatMap Prod.snd)) :
    Ends (addLoop output loop location) a fun v a' =>
      a'.Holds inputs location v (y + sent n (emitted.flatMap Prod.snd) location) ∧
        a.Keeps (a.Beside location) a' := by
  have look {r : NodeRef} {m : Node F} (hm : a.node r = .ok m) :
      Ends (Recording.reporting (do liftM ((← get).node r)) : Recording F (Node F)) a
        fun m' a' => m = m' ∧ a = a' := by
    refine Recording.ends_reporting (ends_get_bind ?_)
    rw [hm]
    exact ⟨m, a, rfl, rfl, rfl⟩
  cases h with
  | plain means =>
      cases output with
      | const z =>
          simp only [addLoop, pure_bind]
          exact ends_accumulate means loops settles
      | node r =>
          obtain ⟨arena, m, hm, tier⟩ := means.node
          simp only [addLoop, pure_bind]
          refine Worlds.Ends.bind (look (node_eq arena hm)) ?_
          rintro _ _ ⟨rfl, rfl⟩
          rw [if_neg (by rintro kind; rw [kind] at tier; cases tier)]
          exact ends_accumulate means loops settles
  | @accumulation r m ys hm kind info summands =>
      simp only [addLoop, pure_bind]
      refine Worlds.Ends.bind (look hm) ?_
      rintro _ _ ⟨rfl, rfl⟩
      rw [if_pos kind]
      obtain ⟨ml, _, hl, kindl, -⟩ := loops.node
      have fits : a.Fits m.kind [.node loop] := fits_node hl (by rw [kind, kindl]; decide)
      have acyclic : a.reaches loop r = .ok false := by
        refine reaches_eq_false (closed_tier tiered 2) ?_ ?_ ?_
        · rintro i ⟨m, hm, -⟩
          exact (Array.getElem?_eq_some_iff.mp hm).1
        · exact ⟨ml, (node_eq_ok_iff.mp hl).2, by rw [kindl]; decide⟩
        · rintro ⟨m', hm', le⟩
          rw [(node_eq_ok_iff.mp hm).2] at hm'
          cases hm'
          rw [kind] at le
          exact absurd le (by decide)
      refine Worlds.Ends.bind (Recording.ends_reporting
        (ends_append hm (by rw [kind]; rfl) fits acyclic)) ?_
      rintro _ _ rfl
      have keeps : a.Keeps (a.Beside location) (a.appended r (.node loop)) := by
        refine (keeps_appended hm (by rw [kind]; rfl) fits).of_nodes fun i m' hm' beside eq => ?_
        subst eq
        exact beside m (node_eq_ok_iff.mp hm).2 kind info
      have keeps' := loopKind_of_beside keeps
      have total : (ys ++ [sent n (emitted.flatMap Prod.snd) location]).sum =
          ys.sum + sent n (emitted.flatMap Prod.snd) location := by
        rw [List.sum_append, List.sum_singleton]
      refine ends_pure ⟨?_, keeps⟩
      rw [← total]
      exact .accumulation (node_appended_self hm) kind info
        (List.rel_append (summands.imp fun v y h => h.keep keeps')
          (.cons (.loop (loops.keep keeps') settles) .nil))

/-- The outputs of an assembly, with what they stand for. -/
structure Outputs.Hold (outputs : Outputs F) (a : Arena F) (inputs : List (Array F)) (size : Nat)
    (y : Nat → R) : Prop where
  size_eq : outputs.size = size
  holds {k : Nat} {v : Value F} : outputs[k]? = some v → a.Holds inputs k v (y k)

theorem Outputs.Hold.extend {a' : Arena F} {outputs : Outputs F} {size : Nat} {y : Nat → R}
    (h : outputs.Hold a inputs size y) (le : a ≤ a') : outputs.Hold a' inputs size y :=
  ⟨h.size_eq, fun hv => (h.holds hv).extend le⟩

theorem Outputs.Hold.congr {outputs : Outputs F} {size : Nat} {y z : Nat → R}
    (h : outputs.Hold a inputs size y) (eq : ∀ k < size, y k = z k) :
    outputs.Hold a inputs size z :=
  ⟨h.size_eq, fun {k _} hv =>
    eq k (h.size_eq ▸ (Array.getElem?_eq_some_iff.mp hv).1) ▸ h.holds hv⟩

theorem Outputs.hold_zeros (size : Nat) :
    (Outputs.zeros size : Outputs F).Hold a inputs size fun _ => (0 : R) where
  size_eq := Array.size_replicate
  holds {k v} hv := by
    rw [zeros, Array.getElem?_replicate] at hv
    rw [← (Option.some.inj (Option.ite_none_right_eq_some.mp hv).2)]
    exact .plain means_zero

/-- Setting some outputs. -/
theorem Outputs.Hold.setAll {outputs : Outputs F} {size : Nat} {y z : Nat → R}
    (h : outputs.Hold a inputs size z) {es : List (Nat × Value F)}
    (holds : ∀ e ∈ es, a.Holds inputs e.1 e.2 (y e.1))
    (rest : ∀ k, k ∉ es.map Prod.fst → z k = y k) :
    Outputs.Hold (es.foldl (fun outputs (k, v) => outputs.setIfInBounds k v) outputs) a inputs size
      y where
  size_eq := (size_foldl_set ..).trans h.size_eq
  holds {k v} hv := by
    rcases getElem?_foldl_set hv with mem | ⟨hv, free⟩
    · exact holds _ mem
    · exact rest k free ▸ h.holds hv

/-- Outputs that are values, none of them an accumulation yet. -/
def Outputs.Plain (outputs : Outputs F) (a : Arena F) (inputs : List (Array F)) (size : Nat)
    (y : Nat → R) : Prop :=
  outputs.size = size ∧ ∀ (k : Nat) (v : Value F), outputs[k]? = some v → a.Means inputs none v (y k)

theorem Outputs.plain_zeros (size : Nat) :
    (Outputs.zeros size : Outputs F).Plain a inputs size fun _ => (0 : R) := by
  refine ⟨Array.size_replicate, fun k v hv => ?_⟩
  rw [Outputs.zeros, Array.getElem?_replicate] at hv
  split at hv
  · cases hv
    exact means_zero
  · cases hv

theorem Outputs.Plain.hold {outputs : Outputs F} {size : Nat} {y : Nat → R}
    (h : outputs.Plain a inputs size y) : outputs.Hold a inputs size y :=
  ⟨h.1, fun {k v} hv => .plain (h.2 k v hv)⟩

/-- Adding a value to an output. -/
theorem Outputs.Plain.yields_add {outputs : Outputs F} {size : Nat} {y : Nat → R}
    (h : outputs.Plain a inputs size y) {k : Nat} (lt : k < size) {v : Value F} {r : R}
    (hv : a.Means inputs none v r) :
    Yields (do
      let sum ← Recording.reporting
        (Value.binary (.binary .add) (outputs.getD k (.const Scalar.zero)) v)
      return outputs.setIfInBounds k sum : Recording F (Outputs F)) a fun outputs' a' =>
        Outputs.Plain outputs' a' inputs size (Function.update y k (y k + r)) := by
  have lt := h.1.symm ▸ lt
  have old : a.Means inputs none (outputs.getD k (.const Scalar.zero)) (y k) := by
    rw [Array.getD_eq_getD_getElem?, Array.getElem?_eq_getElem lt]
    exact h.2 k _ (Array.getElem?_eq_getElem lt)
  refine Yields.bind (Recording.yields_reporting (Value.yields_binary .add old hv))
    fun sum a₁ le means => yields_pure ⟨(Array.size_setIfInBounds ..).trans h.1, fun k' v' hv' => ?_⟩
  rw [Array.getElem?_setIfInBounds] at hv'
  split at hv'
  case isTrue eq =>
      cases hv'
      rw [← eq, Function.update_self]
      exact means
  case isFalse ne =>
      rw [Function.update_of_ne (Ne.symm ne)]
      exact (h.2 k' v' hv').extend le

/-- Adding a loop to the outputs at some locations. -/
theorem ends_addLoopAt {outputs : Outputs F} {size : Nat} {y : Nat → R}
    (h : outputs.Hold a inputs size y) (tiered : a.Tiered)
    (loops : a.Loops (.numbers inputs) n add loop emitted)
    (settles : Settles add n (emitted.flatMap Prod.snd))
    {locations : List Nat} (nodup : locations.Nodup) (inside : ∀ k ∈ locations, k < size) :
    Ends (addLoopAt outputs (some loop) locations) a fun outputs' a' =>
      a.Keeps LoopKind a' ∧ outputs'.Hold a' inputs size fun k =>
        y k + if k ∈ locations then sent n (emitted.flatMap Prod.snd) k else 0 := by
  rw [addLoopAt]
  refine ends_foldlM (fun done (outputs' : Outputs F) a' => a.Keeps LoopKind a' ∧
    outputs'.Hold a' inputs size fun k =>
      y k + if k ∈ done then sent n (emitted.flatMap Prod.snd) k else 0) ?_ ?_
  · exact ⟨Keeps.refl _ _, by simpa using h⟩
  · rintro done k rest outputs' a' split ⟨keeps, h'⟩
    have lt : k < outputs'.size := h'.size_eq ▸ inside k (by simp [split])
    have fresh : k ∉ done := by
      rw [split] at nodup
      exact fun mem => (List.nodup_append.mp nodup).2.2 k mem k (List.mem_cons_self ..) rfl
    have hv : outputs'[k]? = some outputs'[k] := Array.getElem?_eq_getElem lt
    rw [hv]
    simp only [present, pure_bind]
    refine Worlds.Ends.bind (ends_addLoop (h'.holds hv) (keeps.tiered tiered) (loops.keep keeps)
      settles) ?_
    rintro v a'' ⟨holds, beside⟩
    refine ends_pure ⟨keeps.trans (loopKind_of_beside beside), by simpa using h'.size_eq,
      fun {j w} hw => ?_⟩
    rw [Array.getElem?_setIfInBounds] at hw
    split at hw
    case isTrue eq =>
        subst eq
        cases hw
        rw [if_neg fresh, add_zero] at holds
        rwa [if_pos (List.mem_append_right _ (List.mem_singleton.mpr rfl))]
    case isFalse ne =>
        have member : j ∈ done ++ [k] ↔ j ∈ done := by
          rw [List.mem_append, List.mem_singleton, or_iff_left (Ne.symm ne)]
        rw [if_congr member rfl rfl]
        exact (h'.holds hw).keep (Ne.symm ne) beside

/-- Closing a loop and adding it to the outputs at some locations. -/
theorem LoopScope.Body.ends_closeInto {s : LoopScope} {base : Nat} {c : Content R}
    (body : s.Body a (.numbers inputs) n base add c) (tiered : a.Tiered) {outputs : Outputs F}
    {size : Nat} {y : Nat → R} (h : outputs.Hold a inputs size y)
    (settles : Settles add n c.streams) {locations : List Nat} (nodup : locations.Nodup)
    (inside : ∀ k ∈ locations, k < size) :
    Ends (do addLoopAt outputs (← s.close) locations : Recording F (Outputs F)) a fun outputs' a' =>
      a.Keeps LoopKind a' ∧ outputs'.Hold a' inputs size fun k =>
        y k + if k ∈ locations then sent n c.streams k else 0 := by
  refine Worlds.Ends.bind body.yields_close ?_
  rintro loop? a₁ ⟨le, ⟨rfl, none⟩ | ⟨loop, emitted, rfl, loops, perm⟩⟩
  · refine ends_pure ⟨keeps_of_le le, (h.extend le).congr fun k _ => ?_⟩
    have nothing : sent n ([] : List (Stream R)) k = 0 := by simp [sent]
    rw [none, nothing, ite_self, add_zero]
  · refine (ends_addLoopAt (h.extend le) (Keeps.tiered le tiered) loops
      (settles.perm perm) nodup inside).mono ?_
    rintro outputs' a₂ ⟨keeps, h'⟩
    exact ⟨(keeps_of_le le).trans keeps, h'.congr fun k _ => by rw [sent_perm perm]⟩

/-- Closing a loop and adding it to the outputs that it sends something
to. -/
theorem LoopScope.Body.ends_closeTouched {s : LoopScope} {base : Nat} {c : Content R}
    (body : s.Body a (.numbers inputs) n base true c) (tiered : a.Tiered) {outputs : Outputs F}
    {size : Nat} {y gain : Nat → R} (h : outputs.Hold a inputs size y)
    (sends : ∀ k, sent n c.streams k = gain k) {touched : IndexSet}
    (inside : ∀ k ∈ touched, k < size) (rest : ∀ k, k ∉ touched → gain k = 0) :
    Ends (do addLoopAt outputs (← s.close) touched.toList : Recording F (Outputs F)) a
      fun outputs' a' => a.Keeps LoopKind a' ∧
        outputs'.Hold a' inputs size fun k => y k + gain k := by
  refine (body.ends_closeInto tiered h (.inl rfl) (nodup_toList touched) fun k hk =>
    inside k (Std.TreeSet.mem_toList.mp hk)).mono ?_
  rintro outputs' a' ⟨keeps, h'⟩
  refine ⟨keeps, h'.congr fun k _ => ?_⟩
  rw [sends]
  by_cases mem : k ∈ touched.toList
  · rw [if_pos mem]
  · rw [if_neg mem, rest k fun mem' => mem (Std.TreeSet.mem_toList.mpr mem')]

/-! ## Synonyms -/

/-- A value is an output at some location, or a synonym of one. -/
inductive Arena.Shows (a : Arena F) (inputs : List (Array F)) : Value F → R → Prop
  | held {location : Nat} {v : Value F} {y : R} : a.Holds inputs location v y → Shows a inputs v y
  | synonym {location : Nat} {r s : NodeRef} {m : Node F} {y : R} : a.node r = .ok m →
      m.kind = .synonym → m.args = [.node s] → s.index < r.index →
      a.Holds inputs location (.node s) y → Shows a inputs (.node r) y

theorem Arena.Shows.extend {a' : Arena F} {v : Value F} {y : R} (h : a.Shows inputs v y)
    (le : a ≤ a') : a'.Shows inputs v y := by
  cases h with
  | held h => exact .held (h.extend le)
  | synonym hm kind args before h =>
      exact .synonym (Keeps.node_eq le hm trivial) kind args before (h.extend le)

/-- The number of an output that may be a synonym. -/
theorem Arena.Shows.value {v : Value F} {y : R} (h : a.Shows inputs v y) :
    ∃ x, Problem.output? ⟨a, inputs⟩ v = some x ∧ embed x = y := by
  cases h with
  | held h => exact h.value
  | synonym hm kind args before h => exact h.synonym hm kind args before

/-- An output of which a synonym can be made. -/
theorem Arena.Holds.node {r : NodeRef} {y : R} (h : a.Holds inputs location (.node r) y) :
    ∃ m, a.node r = .ok m ∧ m.kind.tier ≤ Kind.synonym.tier := by
  cases h with
  | plain means =>
      obtain ⟨arena, m, hm, tier⟩ := means.node
      exact ⟨m, node_eq arena hm, tier ▸ Nat.zero_le _⟩
  | accumulation hm kind _ _ => exact ⟨_, hm, by rw [kind]; decide⟩

/-- A new synonym of an output. -/
theorem yields_synonym {r : NodeRef} {y : R} (h : a.Holds inputs location (.node r) y) :
    Yields (Recording.push .synonym [.node r] [] : Recording F NodeRef) a fun s a' =>
      a'.Shows inputs (.node s) y := by
  obtain ⟨m, hm, tier⟩ := h.node
  have fits : a.Fits .synonym [.node r] := fits_node hm tier
  refine (yields_push_new (fun _ => Kind.noConfusion) fits).mono ?_
  rintro s a' le ⟨index, hs, -⟩
  refine .synonym hs rfl rfl ?_ (h.extend le)
  rw [index]
  exact (Array.getElem?_eq_some_iff.mp (node_eq_ok_iff.mp hm).2).1

/-! ## Locations of elements -/

/-- Where elements are kept, and which element is kept at a location. -/
def Located (locations : PairMap Nat) (element? : Nat → Option (Nat × Nat)) : Prop :=
  ∀ (e : Nat × Nat) (k : Nat), locations[e]? = some k ↔ element? k = some e

/-- A sum over the locations has one term for a location. -/
theorem Located.sum {R : Type} [AddCommMonoid R] {locations : PairMap Nat}
    {element? : Nat → Option (Nat × Nat)} (h : Located locations element?) (f : Nat × Nat → R)
    (k : Nat) : (locations.toList.map fun e => sentTo k (e.2, f e.1)).sum =
      (element? k).elim 0 f := by
  have found {e : (Nat × Nat) × Nat} (mem : e ∈ locations.toList) : element? e.2 = some e.1 :=
    (h _ _).mp (TreeMap.mem_toList_iff_getElem?_eq_some.mp mem)
  have keys : locations.toList.Nodup := (nodup_map_fst_toList locations).of_map
  have nodup : ((locations.toList.map fun e => (e.2, f e.1)).map Prod.fst).Nodup := by
    rw [List.map_map]
    refine keys.map_on fun e he e' he' (eq : e.2 = e'.2) => ?_
    exact Prod.ext (Option.some.inj ((found he).symm.trans (eq ▸ found he'))) eq
  have sum := sum_sentTo (y := fun k => (element? k).elim 0 f) nodup ?_ k
  · rw [List.map_map] at sum
    refine sum.trans (ite_eq_left_iff.mpr fun absent => ?_)
    cases hk : element? k with
    | none => rfl
    | some e =>
        refine absurd ?_ absent
        rw [List.map_map]
        exact List.mem_map.mpr ⟨(e, k), TreeMap.mem_toList_iff_getElem?_eq_some.mpr ((h e k).mpr hk),
          rfl⟩
  · intro p hp
    obtain ⟨e, he, rfl⟩ := List.mem_map.mp hp
    simp only [found he, Option.elim_some]

end LoopDiff
