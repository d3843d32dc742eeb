import LoopDiff.Proofs.Graph.Steps
import LoopDiff.Proofs.Interpretation

/-!
# LoopDiff.Proofs.Graph.Sketch

The shape of a graph, whether or not it can be finished.

What a graph computes is shown of recordings that succeed.  What its nodes are
connected to is shown here of every recording that happens to give a result:
in the world `Sketch F`, `Ends c a Q` says that the result of `c`, run in the
arena `a`, satisfies `Q` *if there is one*, so a check that fails is as good as
one that passes.  Whatever else the result is, the steps of an arena lead to it
(`Sketch.steps_of_runIn`).

A value is known by the tier of its node only (`Arena.Low`), and a later arena
is one without further accumulations and synonyms (`Arena.Spares`).  Numbers
and nodes of tier zero are an interpretation of values in the ring with one
element (`Interpretation.sketched`), so what is known of tapes over any values
applies to recordings that may fail.
-/

namespace LoopDiff

variable {F : Type}

/-! ## Arenas without further accumulations -/

namespace Arena

/-- The arena `a'` has the accumulations and synonyms of `a`, as they were, and
no others. -/
structure Spares (a a' : Arena F) : Prop where
  keeps : a.Keeps (fun _ kind => kind.tier = 3) a'
  lt_size {i : Nat} {n : Node F} : a'.nodes[i]? = some n → n.kind.tier = 3 → i < a.size

variable {a a' a'' : Arena F} {v : Value F} {r : NodeRef} {n : Node F}

theorem Spares.refl (a : Arena F) : a.Spares a :=
  ⟨.refl _ a, fun hn _ => (Array.getElem?_eq_some_iff.mp hn).1⟩

/-- An accumulation or synonym of the later arena is one of the earlier. -/
theorem Spares.node (h : a.Spares a') {i : Nat} (hn : a'.nodes[i]? = some n)
    (top : n.kind.tier = 3) : a.nodes[i]? = some n := by
  obtain ⟨m, hm⟩ : ∃ m, a.nodes[i]? = some m := ⟨_, Array.getElem?_eq_getElem (h.lt_size hn top)⟩
  obtain ⟨m', hm', kind⟩ := h.keeps.kind hm
  cases hn.symm.trans hm'
  cases (h.keeps.node hm (kind ▸ top)).symm.trans hn
  exact hm

theorem Spares.trans (h : a.Spares a') (h' : a'.Spares a'') : a.Spares a'' :=
  ⟨h.keeps.trans h'.keeps, fun hn top => h.lt_size (h'.node hn top) top⟩

theorem spares_pushed (below : n.kind.tier < 3) (fits : a.Fits n.kind n.args) :
    a.Spares (a.pushed n) := by
  refine ⟨keeps_of_le (le_pushed fits), fun hm top => ?_⟩
  rcases getElem?_push_cases hm with hm | ⟨-, rfl⟩
  · exact (Array.getElem?_eq_some_iff.mp hm).1
  · omega

theorem spares_registered (a : Arena F) (p : Pattern) (k : Nat) : a.Spares (a.registered p k) :=
  ⟨keeps_of_le (le_registered a p k), fun hm _ => (Array.getElem?_eq_some_iff.mp hm).1⟩

/-- An argument for a node that is no accumulation. -/
theorem spares_extended (hn : a.node r = .ok n) (appendable : n.kind.isAppendable = true)
    (below : n.kind.tier < 3) (fits : a.Fits n.kind [v]) : a.Spares (a.extended r [v]) := by
  obtain ⟨-, at_⟩ := node_eq_ok_iff.mp hn
  refine ⟨(keeps_appended hn appendable fits).of_nodes fun i m hm top eq => ?_, fun hm _ => ?_⟩
  · rw [eq, at_] at hm
    cases hm
    omega
  · rw [node_extended, Option.map_eq_some_iff] at hm
    obtain ⟨m, hm, -⟩ := hm
    exact (Array.getElem?_eq_some_iff.mp hm).1

end Arena

/-! ## The world of sketches -/

/-- An arena, as the world of recordings that may fail. -/
structure Sketch (F : Type) where
  arena : Arena F

instance : Preorder (Sketch F) where
  le a a' := a.arena.Spares a'.arena
  le_refl a := .refl a.arena
  le_trans _ _ _ := .trans

namespace Sketch

open Arena

variable {α β : Type} {a a' : Sketch F} {tier : Nat} {v w : Value F}

/-! ## Values by tier -/

/-- A known number, or a node of the arena that is not above a tier. -/
def Low (a : Sketch F) (tier : Nat) (v : Value F) : Prop :=
  ∀ r, v = .node r → ∃ n, a.arena.node r = .ok n ∧ n.kind.tier ≤ tier

theorem low_const {x : F} : a.Low tier (.const x) :=
  fun _ h => by cases h

theorem low_node {r : NodeRef} {n : Node F} (h : a.arena.node r = .ok n)
    (le : n.kind.tier ≤ tier) : a.Low tier (.node r) := by
  rintro _ ⟨⟩
  exact ⟨n, h, le⟩

theorem Low.mono {tier' : Nat} (h : a.Low tier v) (le : tier ≤ tier') : a.Low tier' v := by
  rintro r rfl
  obtain ⟨n, hn, le'⟩ := h r rfl
  exact ⟨n, hn, le'.trans le⟩

theorem Low.keep {P : Nat → Kind → Prop} (h : a.Low tier v) (keeps : a.arena.Keeps P a'.arena) :
    a'.Low tier v := by
  intro r hr
  obtain ⟨n, hn, low⟩ := h r hr
  obtain ⟨arena, hn⟩ := node_eq_ok_iff.mp hn
  obtain ⟨n', hn', kind⟩ := keeps.kind hn
  exact ⟨n', node_eq_ok_iff.mpr ⟨arena.trans keeps.id_eq.symm, hn'⟩, kind ▸ low⟩

theorem Low.later (h : a.Low tier v) (le : a ≤ a') : a'.Low tier v := h.keep le.keeps

theorem fits_of_low {kind : Kind} {args : List (Value F)} (h : ∀ v ∈ args, a.Low kind.tier v) :
    a.arena.Fits kind args := by
  intro r hr
  obtain ⟨n, hn, le⟩ := h _ hr r rfl
  obtain ⟨arena, hn⟩ := node_eq_ok_iff.mp hn
  exact ⟨arena, n, hn, le⟩

/-- A node of the arena that is the end of a loop. -/
def LoopEnd (a : Sketch F) (r : NodeRef) : Prop :=
  ∃ n, a.arena.node r = .ok n ∧ n.kind = .loopEnd

theorem LoopEnd.keep {P : Nat → Kind → Prop} {r : NodeRef} (h : a.LoopEnd r)
    (keeps : a.arena.Keeps P a'.arena) : a'.LoopEnd r := by
  obtain ⟨n, hn, kind⟩ := h
  obtain ⟨arena, hn⟩ := node_eq_ok_iff.mp hn
  obtain ⟨n', hn', kind'⟩ := keeps.kind hn
  exact ⟨n', node_eq_ok_iff.mpr ⟨arena.trans keeps.id_eq.symm, hn'⟩, kind'.trans kind⟩

theorem LoopEnd.low {r : NodeRef} (h : a.LoopEnd r) : a.Low 2 (.node r) := by
  obtain ⟨n, hn, kind⟩ := h
  exact low_node hn (by rw [kind]; decide)

/-! ## Recordings that may fail -/

theorem lawfulMonad_recording : LawfulMonad (Recording F) := inferInstance

variable [Scalar F]

scoped instance (priority := high) : Worlds (ArenaM F) (Sketch F) where
  Ends c a Q := ∀ x a', c.run.run a.arena = (.ok x, a') →
    a.arena.Steps (fun _ => True) a' ∧ Q x ⟨a'⟩
  ends_pure h := by
    rintro _ _ ⟨⟩
    exact ⟨.refl, h⟩
  ends_bind := by
    intro α β c f a P Q hc hf y a'' run
    rw [run_bind] at run
    cases first : c.run.run a.arena with
    | mk r a' =>
        rw [first] at run
        cases r with
        | error e => cases run
        | ok x =>
            obtain ⟨steps, hx⟩ := hc x a' first
            obtain ⟨steps', hy⟩ := hf x ⟨a'⟩ hx y a'' run
            exact ⟨steps.trans steps', hy⟩
  ends_forall h x a' run :=
    ⟨(h (Classical.arbitrary _) x a' run).1, fun i => (h i x a' run).2⟩

scoped instance (priority := high) : Worlds (Recording F) (Sketch F) where
  toLawfulMonad := lawfulMonad_recording
  Ends c a Q := ∀ x s, c.run.run (some a.arena) = (.ok x, s) →
    ∃ a', s = some a' ∧ a.arena.Steps (fun _ => True) a' ∧ Q x ⟨a'⟩
  ends_pure h := by
    rintro _ _ ⟨⟩
    exact ⟨_, rfl, .refl, h⟩
  ends_bind := by
    intro α β c f a P Q hc hf y s' run
    rw [ExceptT.run_bind, StateT.run_bind] at run
    cases first : c.run.run (some a.arena) with
    | mk r s =>
        rw [first] at run
        cases r with
        | error e => cases run
        | ok x =>
            obtain ⟨a', rfl, steps, hx⟩ := hc x s first
            obtain ⟨a'', eq, steps', hy⟩ := hf x ⟨a'⟩ hx y s' run
            exact ⟨a'', eq, steps.trans steps', hy⟩
  ends_forall := by
    intro ι _ α c a Q h x s run
    obtain ⟨a', rfl, steps, -⟩ := h (Classical.arbitrary ι) x s run
    refine ⟨a', rfl, steps, fun i => ?_⟩
    obtain ⟨a'', eq, -, hx⟩ := h i x _ run
    cases eq
    exact hx

/-! ## Steps that may fail -/

theorem ends_throw {e : Failure} {Q : α → Sketch F → Prop} :
    Ends (throw e : Recording F α) a Q := by
  rintro x s ⟨⟩

theorem ends_lift_bind {c : Except Failure α} {f : α → Recording F β} {Q : β → Sketch F → Prop}
    (h : ∀ x, c = .ok x → Ends (f x) a Q) : Ends ((liftM c : Recording F α) >>= f) a Q := by
  cases c with
  | error e => rintro x s ⟨⟩
  | ok x => exact h x rfl

theorem ends_present_bind {x? : Option α} {f : α → Recording F β} {Q : β → Sketch F → Prop}
    (h : ∀ x, x? = some x → Ends (f x) a Q) : Ends ((present x? : Recording F α) >>= f) a Q := by
  cases x? with
  | none => exact ends_throw.bind fun x _ hx => False.elim hx
  | some x => exact h x rfl

theorem yields_present {x? : Option α} {Q : α → Sketch F → Prop} (h : ∀ x, x? = some x → Q x a) :
    Yields (present x? : Recording F α) a Q := by
  cases x? with
  | none => exact ends_throw
  | some x => exact yields_pure (h x rfl)

/-- A check of an arena operation. -/
theorem ends_check_bind {c : Except Failure Unit} {f : Unit → ArenaM F β}
    {Q : β → Sketch F → Prop} (h : Ends (f ()) a Q) :
    Ends ((liftM c : ArenaM F Unit) >>= f) a Q := by
  cases c with
  | error e => rintro x s ⟨⟩
  | ok x => exact h

theorem ends_get_bind {f : Arena F → ArenaM F β} {Q : β → Sketch F → Prop}
    (h : Ends (f a.arena) a Q) : Ends (get >>= f) a Q :=
  h

theorem ends_reporting {c : ArenaM F α} {Q : α → Sketch F → Prop} (h : Ends c a Q) :
    Ends (Recording.reporting c) a Q := by
  intro x s run
  cases first : c.run.run a.arena with
  | mk r a' =>
      have eq : (r, some a') = (.ok x, s) := by
        rw [← run]
        change _ = (c.run.run a.arena).map (fun r => r) some
        rw [first]
        rfl
      cases eq
      exact ⟨a', rfl, h x a' first⟩

theorem ends_operating {c : ArenaM F α} {Q : α → Sketch F → Prop} (h : Ends c a Q) :
    Ends (Recording.operating c) a Q := by
  intro x s run
  refine ends_reporting h x s ?_
  rw [Recording.operating, ExceptT.run_tryCatch, StateT.run_bind] at run
  cases first : (Recording.reporting c).run.run (some a.arena) with
  | mk r s' =>
      rw [first] at run
      cases r with
      | error e => cases run
      | ok y => exact run

section

variable {c : Recording F α} {Q : α → Sketch F → Prop} (h : Ends c a Q) {x : α} {arena : Arena F}
  (run : c.runIn a.arena = (.ok x, arena))

include h run

theorem steps_and_of_runIn : a.arena.Steps (fun _ => True) arena ∧ Q x ⟨arena⟩ := by
  rw [Recording.runIn] at run
  cases first : c.run.run (some a.arena) with
  | mk r s =>
      rw [first] at run
      obtain ⟨rfl, rfl⟩ := Prod.mk.inj run
      obtain ⟨a', rfl, known⟩ := h x s first
      exact known

/-- What is known of a recording is known of a run that gives a result. -/
theorem of_runIn : Q x ⟨arena⟩ := (steps_and_of_runIn h run).2

/-- A run that gives a result changes the arena by steps. -/
theorem steps_of_runIn : a.arena.Steps (fun _ => True) arena := (steps_and_of_runIn h run).1

end

/-- What a run of steps ends with, if it gives a result. -/
theorem ends_of_run {c : ArenaM F α} {Q : α → Sketch F → Prop}
    (moves : Moves (fun _ => True) c)
    (h : ∀ x a', c.run.run a.arena = (.ok x, a') → Q x ⟨a'⟩) : Ends c a Q := by
  intro x a' run
  have steps := moves a.arena
  rw [run] at steps
  exact ⟨steps, h x a' run⟩

/-! ## Nodes and patterns -/

theorem yields_addPattern (p : Pattern) (n : Nat) :
    Yields (Recording.reporting (addPattern (F := F) p n)) a fun _ _ => True := by
  refine ends_reporting (ends_of_run (moves_addPattern p n) fun x a' run => ?_)
  rw [run_addPattern] at run
  split at run
  case h_1 =>
      cases run
      exact ⟨.refl _, trivial⟩
  case h_2 =>
      cases run
      exact ⟨spares_registered _ p n, trivial⟩

/-- A node that is looked at. -/
theorem ends_look {r : NodeRef} :
    Ends (Recording.reporting (do liftM ((← get).node r)) : Recording F (Node F)) a
      fun n a' => a.arena.node r = .ok n ∧ a' = a := by
  refine ends_reporting (ends_of_run (moves_get.bind fun _ => moves_lift _) fun n a' run => ?_)
  rw [run_get_bind, run_lift] at run
  obtain ⟨hn, rfl⟩ := Prod.mk.inj run
  exact ⟨hn, rfl⟩

/-- Another argument for a node that collects them. -/
theorem ends_append {target : NodeRef} {args : List (Value F)} :
    Ends (Recording.reporting (Arena.append target args)) a fun _ a' =>
      (∃ n, a.arena.node target = .ok n ∧ n.kind.isAppendable = true) ∧
        a' = ⟨a.arena.extended target args⟩ := by
  refine ends_reporting (ends_of_run (moves_append target args) fun x a' run => ?_)
  rcases run_append target args a.arena with ⟨e, run'⟩ | ⟨n, hn, appendable, -, -, run'⟩ <;>
    cases run.symm.trans run'
  exact ⟨⟨n, hn, appendable⟩, rfl⟩

/-- Another argument for a node of a branch. -/
theorem yields_append {target r : NodeRef} (ht : a.Low 1 (.node target)) (hr : a.Low 1 (.node r)) :
    Yields (Recording.reporting (Arena.append (F := F) target [.node r])) a fun _ _ => True := by
  refine Worlds.Ends.mono ends_append ?_
  rintro x _ ⟨⟨n, hn, appendable⟩, rfl⟩
  obtain ⟨n', hn', le⟩ := ht target rfl
  cases hn.symm.trans hn'
  have tier : n.kind.tier = 1 := by
    cases kind : n.kind <;> rw [kind] at appendable le <;>
      first | rfl | exact absurd le (by decide) | cases appendable
  refine ⟨spares_extended hn appendable (by omega) (fits_of_low fun v hv => ?_), trivial⟩
  cases List.mem_singleton.mp hv
  exact hr.mono tier.ge

/-- The inputs of a graph. -/
theorem yields_newIndependents (array n : Nat) :
    Yields (Recording.reporting (newIndependents (F := F) array n)) a fun vs a' =>
      vs.length = n ∧ ∀ v ∈ vs, a'.Low 0 v := by
  refine ends_reporting ?_
  rw [newIndependents, checkExtent]
  split
  case isTrue =>
      refine (yields_mapM_forall (P := fun v a' => a'.Low 0 v) (fun _ _ _ le h => h.later le)
        fun position _ a' _ => ends_of_run (moves_newIndependent trivial) ?_).mono
          fun vs a' _ h => ⟨h.1.trans List.length_range, h.2⟩
      rintro v a'' ⟨⟩
      exact ⟨spares_pushed (Nat.succ_pos 2) Fits.nil,
        low_node (node_eq rfl (node_pushed_self ..)) le_rfl⟩
  case isFalse => rintro x s ⟨⟩

/-- A node that is no accumulation or synonym. -/
theorem yields_pushNode {kind : Kind} {args : List (Value F)} {info : List Nat}
    (below : kind.tier < 3) (low : ∀ v ∈ args, a.Low kind.tier v) :
    Yields (Arena.push kind args info) a fun r a' => a'.Low kind.tier (.node r) := by
  refine ends_of_run (moves_push trivial) fun r a' run => ?_
  rcases run_push kind args info a.arena with ⟨e, run'⟩ | ⟨-, ⟨-, i, -, found, run'⟩ | ⟨-, run'⟩⟩
  · cases run.symm.trans run'
  · cases run.symm.trans run'
    obtain ⟨n, hn, records⟩ := exists_of_find? found
    exact ⟨.refl _, low_node (node_eq_ok_iff.mpr ⟨rfl, hn⟩)
      (le_of_eq (congrArg _ (records_iff.mp records).2.2))⟩
  · cases run.symm.trans run'
    exact ⟨spares_pushed below (fits_of_low low), low_node (node_eq rfl (node_pushed_self ..)) le_rfl⟩

/-- A node other than an elementary operation is recorded at the end. -/
theorem ends_pushNew {kind : Kind} {args : List (Value F)} {info : List Nat}
    (structural : ∀ code, kind ≠ .op code) (low : ∀ v ∈ args, a.Low kind.tier v) :
    Ends (Recording.push kind args info) a fun r a' => r.index = a.arena.size ∧
      a'.arena.node r = .ok ⟨kind, args, info, false⟩ ∧
        a' = ⟨a.arena.pushed ⟨kind, args, info, false⟩⟩ := by
  refine ends_reporting (ends_of_run (moves_push trivial) fun r a' run => ?_)
  obtain ⟨_, _, run', rfl, rfl⟩ := ends_push_new structural (fits_of_low low)
  cases run.symm.trans run'
  exact ⟨rfl, node_eq rfl (node_pushed_self ..), rfl⟩

theorem yields_push {kind : Kind} {args : List (Value F)} {info : List Nat}
    (below : kind.tier < 3) (low : ∀ v ∈ args, a.Low kind.tier v) :
    Yields (Recording.push kind args info) a fun r a' => a'.Low kind.tier (.node r) :=
  ends_reporting (yields_pushNode below low)

/-! ## Arithmetic -/

theorem low_of_reduce {op : OpCode} {z : Value F} (hv : a.Low 0 v) (hw : a.Low 0 w)
    (h : Value.reduce op v w = .value z ∨ Value.reduce op v w = .negation z) : a.Low 0 z := by
  rcases Value.eq_of_reduce h with rfl | rfl | rfl
  · exact hv
  · exact hw
  · exact low_const

/-- An elementary operation on one or two values. -/
theorem yields_pushOp (op : OpCode) {args : List (Value F)} {info : List Nat}
    (low : ∀ v ∈ args, a.Low 0 v) :
    Yields (do return .node (← Arena.push (.op op) args info) : ArenaM F (Value F)) a
      fun z a' => a'.Low 0 z :=
  Yields.bind (yields_pushNode (by simp [Kind.tier]) low) fun _ _ _ h => yields_pure h

theorem yields_recordUnary (op : OpCode) (hv : a.Low 0 v) :
    Yields (Value.recordUnary op v) a fun z a' => a'.Low 0 z :=
  ends_get_bind (ends_check_bind (yields_pushOp op fun _ hz => List.mem_singleton.mp hz ▸ hv))

theorem yields_valueBinary (op : OpCode) (hv : a.Low 0 v) (hw : a.Low 0 w) :
    Yields (Value.binary op v w) a fun z a' => a'.Low 0 z := by
  by_cases constants : ∃ x y, v = .const x ∧ w = .const y
  case pos =>
      obtain ⟨x, y, rfl, rfl⟩ := constants
      exact yields_pure low_const
  case neg =>
      rw [Value.binary]
      case x => exact fun x y hv hw => constants ⟨x, y, hv, hw⟩
      refine ends_check_bind (ends_get_bind (ends_check_bind (ends_get_bind (ends_check_bind ?_))))
      cases reduced : Value.reduce op v w with
      | value z => exact yields_pure (low_of_reduce hv hw (.inl reduced))
      | negation z => exact yields_recordUnary _ (low_of_reduce hv hw (.inr reduced))
      | operation =>
          refine yields_pushOp op fun z hz => ?_
          rcases List.mem_pair.mp hz with rfl | rfl
          · exact hv
          · exact hw

theorem yields_valuePowi (n : Int32) (hv : a.Low 0 v) :
    Yields (Value.powi v n) a fun z a' => a'.Low 0 z := by
  cases v with
  | const x => exact yields_pure low_const
  | node r =>
      simp only [Value.powi]
      split
      case isTrue => exact yields_pure low_const
      case isFalse =>
          split
          case isTrue => exact yields_pure hv
          case isFalse =>
              exact ends_get_bind (ends_check_bind
                (yields_pushOp .powi fun _ hz => List.mem_singleton.mp hz ▸ hv))

/-- An operation that is recorded beside the operators. -/
theorem yields_binary (op : OpCode) (hv : a.Low 0 v) (hw : a.Low 0 w) :
    Yields (Recording.reporting (Value.binary op v w)) a fun z a' => a'.Low 0 z :=
  ends_reporting (yields_valueBinary op hv hw)

end Sketch

open Sketch in
/-- Numbers and nodes of tier zero, as values that stand for the one element of
a ring. -/
def Interpretation.sketched (F : Type) [Scalar F] :
    Interpretation (Recording F) F (Value F) PUnit where
  means a v _ := a.Low 0 v
  exponent _ := True
  later le h := h.later le
  ofBase _ _ := low_const
  isZero _ _ := rfl
  binary op a v w _ _ hv hw := by
    change Yields (Recording.binary (.binary op) v w) a _
    unfold Recording.binary
    split
    case h_1 => exact yields_pure low_const
    case h_2 => exact ends_operating (yields_valueBinary _ hv hw)
  unary op a v _ hv := by
    change Yields (Recording.unary (.unary op) v) a _
    cases v with
    | const x => exact yields_pure low_const
    | node r => exact ends_operating (yields_recordUnary _ hv)
  powi {a v _ n} _ hv := by
    change Yields (Recording.powi v n) a _
    cases v with
    | const x => exact yields_pure low_const
    | node r => exact ends_operating (yields_valuePowi n hv)

namespace Interpretation

open Sketch

variable [Scalar F]

theorem takes_sketched : (sketched F).Takes 0 :=
  fun _ _ => trivial

theorem takes_dual_sketched : (sketched F).dual.Takes 0 :=
  takes_sketched.dual_of_crash fun _ _ => ends_throw

theorem takes_twice_sketched : (sketched F).dual.dual.Takes 0 :=
  takes_dual_sketched.dual_of_crash fun _ _ => ends_throw

end Interpretation

end LoopDiff
