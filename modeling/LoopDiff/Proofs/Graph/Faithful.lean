import LoopDiff.Proofs.Graph.Fresh

/-!
# LoopDiff.Proofs.Graph.Faithful

Evaluations remember what is computed afresh.

An evaluation that remembers gives what `Arena.evaluateFresh` gives
(`Arena.Grounded.evaluate_fresh`) because whatever it remembers is what is
computed afresh: at every iteration, if the value was kept for the whole
evaluation, and at the current one, if it was kept for the iteration
(`Problem.Faithful`).

The value of an accumulation is kept for the whole evaluation, and nothing is
asked about its arguments.  So it is assumed that no accumulation depends on the
iteration (`Arena.Steady`).
-/

namespace LoopDiff

open Std Relation

variable {F : Type}

/-! ## Computations that succeed -/

namespace Eval

variable {α β : Type}

theorem lift_eq_ok {c : Except Failure α} {m m' : Memory F} {x : α}
    (h : (liftM c : Eval F α).run m = .ok (x, m')) : c = .ok x ∧ m' = m := by
  cases c with
  | error e => cases h
  | ok y =>
      cases h
      exact ⟨rfl, rfl⟩

theorem iterationFor_bind_eq_ok {r : NodeRef} {f : Nat → Eval F β} {m m' : Memory F} {y : β}
    (h : (Problem.iterationFor r >>= f).run m = .ok (y, m')) :
    ∃ i, m.iteration = some i ∧ (f i).run m = .ok (y, m') := by
  rw [Problem.iterationFor, bind_assoc, run_get_bind] at h
  cases hi : m.iteration with
  | none =>
      rw [hi] at h
      cases h
  | some i =>
      rw [hi] at h
      exact ⟨i, rfl, h⟩

/-- What every step of a fold keeps, if it succeeds, the fold keeps. -/
theorem foldlM_keeps {f : β → α → Eval F β} {I : β → Memory F → Prop} {xs : List α}
    (step : ∀ x ∈ xs, ∀ y m y' m', I y m → (f y x).run m = .ok (y', m') → I y' m')
    {y y' : β} {m m' : Memory F} (init : I y m) (h : (xs.foldlM f y).run m = .ok (y', m')) :
    I y' m' := by
  induction xs generalizing y m with
  | nil =>
      cases h
      exact init
  | cons x xs ih =>
      rw [List.foldlM_cons] at h
      obtain ⟨y₁, m₁, first, h⟩ := bind_eq_ok h
      exact ih (fun x' mem => step x' (List.mem_cons_of_mem _ mem))
        (step x (List.mem_cons_self ..) y m y₁ m₁ init first) h

/-- A fold computes what another one computes without a memory, if every step
does. -/
theorem foldlM_fresh {f : β → α → Eval F β} {g : β → α → Except Failure β}
    {J : Memory F → Prop} {xs : List α}
    (step : ∀ x ∈ xs, ∀ y m y' m', J m → (f y x).run m = .ok (y', m') → g y x = .ok y' ∧ J m')
    {y y' : β} {m m' : Memory F} (init : J m) (h : (xs.foldlM f y).run m = .ok (y', m')) :
    xs.foldlM g y = .ok y' ∧ J m' := by
  induction xs generalizing y m with
  | nil =>
      cases h
      exact ⟨rfl, init⟩
  | cons x xs ih =>
      rw [List.foldlM_cons] at h
      obtain ⟨y₁, m₁, first, h⟩ := bind_eq_ok h
      obtain ⟨fresh, kept⟩ := step x (List.mem_cons_self ..) y m y₁ m₁ init first
      rw [List.foldlM_cons, bind_of_ok fresh]
      exact ih (fun x' mem => step x' (List.mem_cons_of_mem _ mem)) kept h

end Eval

namespace Problem

variable [Scalar F] {p : Problem F} {it it' : Option Nat} {m m' : Memory F} {r : NodeRef}
  {n : Node F} {d : Nat}

/-! ## What is remembered -/

/-- The value of a node, computed afresh. -/
def Fresh (p : Problem F) (it : Option Nat) (r : NodeRef) (x : F) : Prop :=
  ∀ d, p.arena.rank r.index < d → p.freshValue d it r = .ok x

/-- What a loop writes, when it is run afresh. -/
def FreshRun (p : Problem F) (loop : NodeRef) (acc : Accumulator F) : Prop :=
  ∀ d, p.arena.rank loop.index < d → p.freshLoop d loop = .ok acc

/-- What is remembered is what is computed afresh: a value that is kept for the
whole evaluation at every iteration, one that is kept for an iteration at this
one. -/
structure Faithful (p : Problem F) (m : Memory F) : Prop where
  invariant {i : Nat} {x : F} : m.invariant[i]? = some x →
    ¬p.arena.Varies i ∧ ∀ it, p.Fresh it (p.arena.handle i) x
  varying {i : Nat} {x : F} : m.varying[i]? = some x → p.Fresh m.iteration (p.arena.handle i) x
  loops {i : Nat} {acc : Accumulator F} : m.loops[i]? = some acc →
    p.FreshRun (p.arena.handle i) acc
  chains {i : Nat} {chain : Chain} : m.chains[i]? = some chain →
    p.collectChain (p.arena.handle i) = .ok chain

/-- The marks of a visit are values computed afresh. -/
def Marked (p : Problem F) (it : Option Nat) (marks : Marks F) : Prop :=
  ∀ (i : Nat) (x : F) (varies : Bool), marks[i]? = some (.done x varies) →
    p.Fresh it (p.arena.handle i) x ∧ (varies = false → ¬p.arena.Varies i)

/-- After a computation that ends at the iteration at which it began. -/
structure Stays (p : Problem F) (m m' : Memory F) : Prop where
  faithful : p.Faithful m'
  iteration : m'.iteration = m.iteration

theorem faithful_empty : p.Faithful Memory.empty := by
  constructor <;> intro i x h <;> simp [Memory.empty] at h

theorem Faithful.stays (h : p.Faithful m) : p.Stays m m := ⟨h, rfl⟩

theorem Stays.trans {m'' : Memory F} (h : p.Stays m m') (h' : p.Stays m' m'') : p.Stays m m'' :=
  ⟨h'.faithful, h'.iteration.trans h.iteration⟩

theorem Faithful.moveTo (h : p.Faithful m) (it : Option Nat) : p.Faithful (m.moveTo it) where
  invariant := h.invariant
  varying found := by simp [Memory.moveTo] at found
  loops := h.loops
  chains := h.chains

theorem Faithful.value? (h : p.Faithful m) {i : Nat} {x : F} {varies : Bool}
    (found : m.value? i = some (x, varies)) :
    p.Fresh m.iteration (p.arena.handle i) x ∧ (varies = false → ¬p.arena.Varies i) := by
  rw [Memory.value?] at found
  split at found
  case h_1 here =>
      cases found
      exact ⟨(h.invariant here).2 _, fun _ => (h.invariant here).1⟩
  case h_2 =>
      obtain ⟨_, here, eq⟩ := Option.map_eq_some_iff.mp found
      cases eq
      exact ⟨h.varying here, fun flag => by cases flag⟩

/-- A value that does not depend on the iteration is kept for all of them. -/
theorem Faithful.keep (h : p.Faithful m) (owned : p.arena.Owned) {i : Nat} {x : F} {varies : Bool}
    (fresh : p.Fresh m.iteration (p.arena.handle i) x) (flag : varies = false → ¬p.arena.Varies i) :
    p.Stays m (m.keep i x varies) := by
  cases varies with
  | false =>
      refine ⟨⟨fun found => ?_, h.varying, h.loops, h.chains⟩, rfl⟩
      simp only [Memory.keep, Bool.false_eq_true, if_false, TreeMap.getElem?_insert] at found
      split at found
      case isTrue eq =>
          cases Nat.compare_eq_eq.mp eq
          cases found
          refine ⟨flag rfl, fun it d lt => ?_⟩
          rw [freshValue_eq owned (flag rfl) d it m.iteration]
          exact fresh d lt
      case isFalse => exact h.invariant found
  | true =>
      refine ⟨⟨h.invariant, fun found => ?_, h.loops, h.chains⟩, rfl⟩
      simp only [Memory.keep, if_true, TreeMap.getElem?_insert] at found
      split at found
      case isTrue eq =>
          cases Nat.compare_eq_eq.mp eq
          cases found
          exact fresh
      case isFalse => exact h.varying found

theorem Marked.insert {marks : Marks F} (h : p.Marked it marks) {i : Nat} {mark : Mark F}
    (new : ∀ x varies, mark = .done x varies →
      p.Fresh it (p.arena.handle i) x ∧ (varies = false → ¬p.arena.Varies i)) :
    p.Marked it (marks.insert i mark) := by
  intro j x varies found
  rw [TreeMap.getElem?_insert] at found
  split at found
  case isTrue eq =>
      cases Nat.compare_eq_eq.mp eq
      exact new x varies (Option.some.inj found)
  case isFalse => exact h j x varies found

/-! ## Value nodes -/

/-- Runs of loops write what they write when they are run afresh. -/
def RunsFresh (p : Problem F) (run : NodeRef → Eval F (Accumulator F)) : Prop :=
  ∀ (loop : NodeRef) (m : Memory F) (acc : Accumulator F) (m' : Memory F), p.Faithful m →
    (run loop).run m = .ok (acc, m') → p.FreshRun (p.arena.handle loop.index) acc ∧ p.Stays m m'

/-- Values are what is computed afresh. -/
def ReadsFresh (p : Problem F) (value : NodeRef → Eval F F) : Prop :=
  ∀ (r : NodeRef) (m : Memory F) (x : F) (m' : Memory F), p.Faithful m →
    (value r).run m = .ok (x, m') → p.Fresh m.iteration (p.arena.handle r.index) x ∧ p.Stays m m'

section

variable (grounded : p.arena.Grounded)

include grounded

omit [Scalar F] in
/-- An argument of a node is a node of the arena, with a lower rank. -/
theorem argument_facts (hn : p.arena.node r = .ok n) {s : NodeRef} (mem : .node s ∈ n.args) :
    p.arena.handle s.index = s ∧ p.arena.rank s.index < p.arena.rank r.index :=
  have own := grounded.owned _ n (Arena.node_eq_ok_iff.mp hn).2 s mem
  ⟨handle_eq (Arena.owns_iff.mp own).1, grounded.rank_lt_of_edge (Arena.edge_of_mem hn mem)⟩

variable {marks : Marks F} (marked : p.Marked it marks) (hn : p.arena.node r = .ok n)
  (le : p.arena.rank r.index ≤ d)

include marked hn le

/-- An operand that was visited is what is computed afresh. -/
theorem argument_of_operand {v : Value F} {x : F} {varies : Bool} (mem : v ∈ n.args)
    (h : operand marks r v = .ok (x, varies)) : argument (p.freshValue d it) v = .ok x ∧
      (varies = false → ∀ s, v = .node s → ¬p.arena.Varies s.index) := by
  cases v with
  | const y =>
      cases h
      exact ⟨rfl, fun _ s eq => by cases eq⟩
  | node s =>
      rw [operand] at h
      split at h
      case h_1 y varies' found =>
          cases h
          obtain ⟨fresh, flag⟩ := marked _ _ _ found
          obtain ⟨own, less⟩ := argument_facts grounded hn mem
          rw [own] at fresh
          refine ⟨fresh d (less.trans_le le), fun eq t ht => ?_⟩
          cases ht
          exact flag eq
      case h_2 => cases h

theorem argumentAt_of_operand {k : Nat} {v : Value F} {x : F} {varies : Bool}
    (hv : n.args[k]? = some v) (h : operand marks r v = .ok (x, varies)) :
    argumentAt (p.freshValue d it) n k = .ok x ∧
      (varies = false → ∀ s, n.args[k]? = some (.node s) → ¬p.arena.Varies s.index) := by
  obtain ⟨value, flag⟩ :=
    argument_of_operand grounded marked hn le (List.mem_of_getElem? hv) h
  refine ⟨by rw [argumentAt, hv]; exact value, fun eq s hs => flag eq s ?_⟩
  exact Option.some.inj (hv.symm.trans hs)

end

section

variable {run : NodeRef → Eval F (Accumulator F)} (grounded : p.arena.Grounded)
  (runs : p.RunsFresh run)

include grounded runs

omit grounded in
/-- What is read of a loop is what the loop writes when it is run afresh. -/
theorem freshRun_of_locationValue {loop : NodeRef} {location : Nat} {x : F} (faithful : p.Faithful m)
    (h : (locationValue run loop location).run m = .ok (x, m')) :
    ∃ acc, p.FreshRun (p.arena.handle loop.index) acc ∧ x = acc.getD location Scalar.zero ∧
      p.Stays m m' := by
  rw [locationValue, Eval.run_get_bind] at h
  cases found : m.loops[loop.index]? with
  | some acc =>
      rw [found] at h
      cases h
      exact ⟨acc, faithful.loops found, rfl, faithful.stays⟩
  | none =>
      rw [found] at h
      obtain ⟨acc, m₁, first, h⟩ := Eval.bind_eq_ok h
      cases h
      obtain ⟨fresh, stays⟩ := runs loop m acc m₁ faithful first
      have kept := stays.faithful
      refine ⟨acc, fresh, rfl, ⟨kept.invariant, kept.varying, fun hi => ?_, kept.chains⟩,
        stays.iteration⟩
      simp only [TreeMap.getElem?_insert] at hi
      split at hi
      case isTrue eq =>
          cases Nat.compare_eq_eq.mp eq
          cases hi
          exact fresh
      case isFalse => exact kept.loops hi

/-- What an argument adds to an accumulation is what is computed afresh. -/
theorem summand_of_step {marks : Marks F} {location : Nat} {sum sum' : F} {v : Value F}
    (faithful : p.Faithful m) (marked : p.Marked m.iteration marks) (hn : p.arena.node r = .ok n)
    (le : p.arena.rank r.index ≤ d) (mem : v ∈ n.args)
    (h : (do
      let loop? ← match v with
        | .const _ => pure none
        | .node a => do
          pure (if (← p.arena.node a).kind = .loopEnd then some a else none)
      let x ← match loop? with
        | some loop => locationValue run loop location
        | none => do pure (← operand marks r v).1
      return Scalar.binary .add sum x : Eval F F).run m = .ok (sum', m')) :
    (do
      return Scalar.binary .add sum
        (← p.summand (p.freshValue d m.iteration) (p.freshLoop d) location v)) = .ok sum' ∧
      p.Stays m m' := by
  cases v with
  | const x =>
      cases h
      exact ⟨rfl, faithful.stays⟩
  | node s =>
      obtain ⟨own, less⟩ := argument_facts grounded hn mem
      dsimp only at h
      obtain ⟨ns, hs, h⟩ := Eval.lift_bind_eq_ok h
      rw [pure_bind] at h
      by_cases loop : ns.kind = .loopEnd
      · rw [if_pos loop] at h
        obtain ⟨x, m₁, read, h⟩ := Eval.bind_eq_ok h
        cases h
        obtain ⟨acc, fresh, rfl, stays⟩ := freshRun_of_locationValue runs faithful read
        rw [own] at fresh
        refine ⟨?_, stays⟩
        rw [summand, bind_of_ok hs, if_pos loop, bind_of_ok (fresh d (less.trans_le le))]
        rfl
      · rw [if_neg loop] at h
        obtain ⟨⟨y, varies⟩, hy, h⟩ := Eval.lift_bind_eq_ok h
        cases h
        refine ⟨?_, faithful.stays⟩
        have value := (argument_of_operand grounded marked hn le mem hy).1
        rw [summand, bind_of_ok hs, if_neg loop]
        exact bind_of_ok value _

omit grounded runs in
/-- The last step of an operation, once its operands are there. -/
theorem exponentiated_of_run {code : OpCode} {y z x : F} {flag varies : Bool} (h : (do
      let exponent ← match code with
        | .powi => do pure (Exponent.decode (← present n.info[0]?))
        | _ => pure 0
      return (code.eval y z exponent, flag) : Eval F (F × Bool)).run m = .ok ((x, varies), m')) :
    (do
      let exponent ← match code with
        | .powi => do pure (Exponent.decode (← present n.info[0]?))
        | _ => pure 0
      return code.eval y z exponent : Except Failure F) = .ok x ∧ varies = flag ∧ m' = m := by
  cases code with
  | powi =>
      obtain ⟨word, hword, h⟩ := Eval.present_bind_eq_ok h
      cases h
      refine ⟨?_, rfl, rfl⟩
      simp only [hword]
      rfl
  | _ =>
      cases h
      exact ⟨rfl, rfl, rfl⟩

/-- The value of a node is what is computed afresh. -/
theorem compute_of_nodeValue (steady : p.arena.Steady) {marks : Marks F} {x : F} {varies : Bool}
    (faithful : p.Faithful m) (marked : p.Marked m.iteration marks) (hn : p.arena.node r = .ok n)
    (le : p.arena.rank r.index ≤ d)
    (h : (p.nodeValue run marks r n).run m = .ok ((x, varies), m')) :
    p.compute (p.freshValue d m.iteration) (p.freshLoop d) m.iteration r n = .ok x ∧
      (varies = false → ¬p.arena.Varies r.index) ∧ p.Stays m m' := by
  have hn' := (Arena.node_eq_ok_iff.mp hn).2
  cases kind : n.kind with
  | independent =>
      simp only [nodeValue, kind] at h
      obtain ⟨array, harray, h⟩ := Eval.present_bind_eq_ok h
      obtain ⟨position, hposition, h⟩ := Eval.present_bind_eq_ok h
      obtain ⟨y, hy, h⟩ := Eval.lift_bind_eq_ok h
      cases h
      refine ⟨?_, fun _ => (Arena.not_varies_iff hn').mpr ?_, faithful.stays⟩
      · simp only [compute, kind, harray, hposition]
        exact hy
      · simp [Node.readsIteration, Node.consulted, kind]
  | assign | synonym =>
      simp only [nodeValue, kind] at h
      obtain ⟨v, hv, h⟩ := Eval.present_bind_eq_ok h
      obtain ⟨hop, rfl⟩ := Eval.lift_eq_ok h
      obtain ⟨value, flag⟩ := argumentAt_of_operand grounded marked hn le hv hop
      refine ⟨?_, fun eq => (Arena.not_varies_iff hn').mpr ?_, faithful.stays⟩
      · simp only [compute, kind]
        exact value
      · simp only [Node.readsIteration, Node.consulted, kind, mem_take_one, true_and]
        exact flag eq
  | op code =>
      simp only [nodeValue, kind] at h
      obtain ⟨v, hv, h⟩ := Eval.present_bind_eq_ok h
      obtain ⟨⟨y, vy⟩, hy, h⟩ := Eval.lift_bind_eq_ok h
      obtain ⟨first, flag⟩ := argumentAt_of_operand grounded marked hn le hv hy
      simp only [compute, kind, bind_of_ok first, Arena.not_varies_iff hn', Node.readsIteration,
        Node.consulted, mem_take_two, true_and]
      cases hw : n.args[1]? with
      | none =>
          rw [hw] at h
          obtain ⟨value, rfl, rfl⟩ := exponentiated_of_run h
          refine ⟨value, fun eq => ?_, faithful.stays⟩
          rintro s (hs | hs)
          · exact flag (Bool.or_eq_false_iff.mp eq).1 s hs
          · cases hs
      | some w =>
          rw [hw] at h
          obtain ⟨⟨z, vz⟩, hz, h⟩ := Eval.lift_bind_eq_ok h
          obtain ⟨second, flag'⟩ :=
            argument_of_operand grounded marked hn le (List.mem_of_getElem? hw) hz
          obtain ⟨value, rfl, rfl⟩ := exponentiated_of_run h
          refine ⟨(bind_of_ok second _).trans value, fun eq => ?_, faithful.stays⟩
          rintro s (hs | hs)
          · exact flag (Bool.or_eq_false_iff.mp eq).1 s hs
          · exact flag' (Bool.or_eq_false_iff.mp eq).2 s (Option.some.inj hs)
  | compound op =>
      simp only [nodeValue, kind] at h
      obtain ⟨v, hv, h⟩ := Eval.present_bind_eq_ok h
      obtain ⟨⟨y, vy⟩, hy, h⟩ := Eval.lift_bind_eq_ok h
      obtain ⟨w, hw, h⟩ := Eval.present_bind_eq_ok h
      obtain ⟨⟨z, vz⟩, hz, h⟩ := Eval.lift_bind_eq_ok h
      cases h
      obtain ⟨first, flag⟩ := argumentAt_of_operand grounded marked hn le hv hy
      obtain ⟨second, flag'⟩ := argumentAt_of_operand grounded marked hn le hw hz
      refine ⟨?_, fun eq => (Arena.not_varies_iff hn').mpr ?_, faithful.stays⟩
      · simp only [compute, kind, bind_of_ok first, bind_of_ok second]
        rfl
      · obtain ⟨rfl, rfl⟩ := Bool.or_eq_false_iff.mp eq
        simp only [Node.readsIteration, Node.consulted, kind, mem_take_two, true_and]
        rintro s (hs | hs)
        · exact flag rfl s hs
        · exact flag' rfl s hs
  | iteration =>
      simp only [nodeValue, kind] at h
      obtain ⟨i, hi, h⟩ := Eval.iterationFor_bind_eq_ok h
      cases h
      refine ⟨?_, fun flag => (by cases flag), faithful.stays⟩
      simp only [compute, kind, hi]
      rfl
  | indexedRead =>
      simp only [nodeValue, kind] at h
      obtain ⟨i, hi, h⟩ := Eval.iterationFor_bind_eq_ok h
      obtain ⟨pattern, hpattern, h⟩ := Eval.present_bind_eq_ok h
      obtain ⟨position, hposition, h⟩ := Eval.lift_bind_eq_ok h
      obtain ⟨array, harray, h⟩ := Eval.present_bind_eq_ok h
      obtain ⟨y, hy, h⟩ := Eval.lift_bind_eq_ok h
      cases h
      refine ⟨?_, fun flag => (by cases flag), faithful.stays⟩
      simp only [compute, kind, hi, hpattern, harray]
      exact (bind_of_ok hposition _).trans hy
  | accumulate =>
      simp only [nodeValue, kind] at h
      obtain ⟨location, hlocation, h⟩ := Eval.present_bind_eq_ok h
      obtain ⟨sum, m₁, fold, h⟩ := Eval.bind_eq_ok h
      cases h
      have added := Eval.foldlM_fresh (J := p.Stays m) (g := fun sum v => do
        return Scalar.binary .add sum
          (← p.summand (p.freshValue d m.iteration) (p.freshLoop d) location v))
        (fun v mem sum m₂ sum' m₃ stays step => ?_) faithful.stays fold
      · refine ⟨?_, fun _ => steady _ n hn' kind, added.2⟩
        simp only [compute, kind, hlocation]
        exact added.1
      · have marked' : p.Marked m₂.iteration marks := stays.iteration ▸ marked
        obtain ⟨fresh, stays'⟩ :=
          summand_of_step grounded runs stays.faithful marked' hn le mem step
        rw [stays.iteration] at fresh
        exact ⟨fresh, stays.trans stays'⟩
  | _ =>
      simp only [nodeValue, kind] at h
      cases h

/-- A visit leaves marks that are computed afresh. -/
theorem marked_of_visit (steady : p.arena.Steady) {depth : Nat} {marks marks' : Marks F}
    (faithful : p.Faithful m) (marked : p.Marked m.iteration marks)
    (h : (p.visit run depth r marks).run m = .ok (marks', m')) :
    p.Marked m.iteration marks' ∧ p.Stays m m' := by
  induction depth generalizing r marks marks' m m' with
  | zero => cases h
  | succ depth ih =>
      rw [visit, Eval.run_get_bind] at h
      split at h
      case h_1 =>
          cases h
          exact ⟨marked, faithful.stays⟩
      case h_2 x varies found _ =>
          cases h
          refine ⟨marked.insert fun y varies' eq => ?_, faithful.stays⟩
          cases eq
          exact faithful.value? found
      case h_3 => cases h
      case h_4 =>
          obtain ⟨n, hn, h⟩ := Eval.lift_bind_eq_ok h
          obtain ⟨children, -, h⟩ := Eval.lift_bind_eq_ok h
          obtain ⟨marks₁, m₁, visited, h⟩ := Eval.bind_eq_ok h
          obtain ⟨⟨x, varies⟩, m₂, computed, h⟩ := Eval.bind_eq_ok h
          cases h
          have opened : p.Marked m.iteration (marks.insert r.index .opened) :=
            marked.insert fun y varies eq => by cases eq
          obtain ⟨marked₁, stays⟩ := Eval.foldlM_keeps
            (I := fun marks m₁ => p.Marked m.iteration marks ∧ p.Stays m m₁)
            (fun s _ marks m₁ marks' m₂ kept step => by
              obtain ⟨marked, stays⟩ := kept
              have marked : p.Marked m₁.iteration marks := stays.iteration ▸ marked
              obtain ⟨marked', stays'⟩ := ih stays.faithful marked step
              rw [stays.iteration] at marked'
              exact ⟨marked', stays.trans stays'⟩)
            ⟨opened, faithful.stays⟩ visited
          have marked₁ : p.Marked m₁.iteration marks₁ := stays.iteration ▸ marked₁
          obtain ⟨-, flag, stays'⟩ :=
            compute_of_nodeValue grounded runs steady stays.faithful marked₁ hn le_rfl computed
          have fresh : p.Fresh m₂.iteration (p.arena.handle r.index) x := by
            rw [← Arena.eq_handle hn, stays'.iteration]
            intro d less
            obtain ⟨d, rfl⟩ := Nat.exists_eq_succ_of_ne_zero (Nat.ne_zero_of_lt less)
            rw [freshValue, bind_of_ok hn]
            exact (compute_of_nodeValue grounded runs steady stays.faithful marked₁ hn
              (Nat.le_of_lt_succ less) computed).1
          have kept := stays'.faithful.keep grounded.owned fresh flag
          rw [stays'.iteration, stays.iteration] at fresh
          refine ⟨?_, (stays.trans stays').trans kept⟩
          refine Marked.insert (stays.iteration ▸ marked₁) fun y varies' eq => ?_
          cases eq
          exact ⟨fresh, flag⟩

theorem readsFresh_value (steady : p.arena.Steady) : p.ReadsFresh (p.value run) := by
  intro r m x m' faithful h
  rw [value, Eval.run_get_bind] at h
  split at h
  case h_1 y varies found =>
      cases h
      exact ⟨(faithful.value? found).1, faithful.stays⟩
  case h_2 =>
      obtain ⟨marks, m₁, visited, h⟩ := Eval.bind_eq_ok h
      have empty : p.Marked m.iteration ∅ := fun i x varies found => by simp at found
      obtain ⟨marked, stays⟩ := marked_of_visit grounded runs steady faithful empty visited
      split at h
      case h_1 y varies found =>
          cases h
          exact ⟨(marked _ _ _ found).1, stays⟩
      case h_2 => cases h

end

/-! ## Loops -/

theorem chain_of_chainOf (faithful : p.Faithful m) {chain : Chain} (hn : p.arena.node r = .ok n)
    (h : (p.chainOf r).run m = .ok (chain, m')) : p.collectChain r = .ok chain ∧ p.Stays m m' := by
  rw [chainOf, Eval.run_get_bind] at h
  split at h
  case h_1 found =>
      cases h
      refine ⟨?_, faithful.stays⟩
      rw [Arena.eq_handle hn]
      exact faithful.chains found
  case h_2 =>
      obtain ⟨chain', collected, h⟩ := Eval.lift_bind_eq_ok h
      cases h
      refine ⟨collected, ⟨faithful.invariant, faithful.varying, faithful.loops, fun hi => ?_⟩, rfl⟩
      simp only [TreeMap.getElem?_insert] at hi
      split at hi
      case isTrue eq =>
          cases Nat.compare_eq_eq.mp eq
          cases hi
          rwa [← Arena.eq_handle hn]
      case isFalse => exact faithful.chains hi

/-- The last step of a write, once its value is there. -/
theorem written_of_run {i : Nat} {x : F} {acc acc' : Accumulator F} (h : (do
      let location ← p.patternAt (← present n.info[0]?) i
      if (← present n.info[1]?) = 1 then
        return acc.insert location (Scalar.binary .add (acc.getD location Scalar.zero) x)
      else
        return acc.insert location x : Eval F (Accumulator F)).run m = .ok (acc', m')) :
    (do
      let location ← p.patternAt (← present n.info[0]?) i
      if (← present n.info[1]?) = 1 then
        return acc.insert location (Scalar.binary .add (acc.getD location Scalar.zero) x)
      else
        return acc.insert location x : Except Failure (Accumulator F)) = .ok acc' ∧ m' = m := by
  obtain ⟨pattern, hpattern, h⟩ := Eval.present_bind_eq_ok h
  obtain ⟨location, hlocation, h⟩ := Eval.lift_bind_eq_ok h
  obtain ⟨flag, hflag, h⟩ := Eval.present_bind_eq_ok h
  simp only [hpattern, hflag]
  split at h
  case isTrue adds =>
      cases h
      exact ⟨(bind_of_ok hlocation _).trans (if_pos adds), rfl⟩
  case isFalse assigns =>
      cases h
      exact ⟨(bind_of_ok hlocation _).trans (if_neg assigns), rfl⟩

section

variable (grounded : p.arena.Grounded)

include grounded

/-- A loop result does to the locations what it does afresh. -/
theorem perform_of_execute {value : NodeRef → Eval F F} (reads : p.ReadsFresh value) {i depth : Nat}
    {acc acc' : Accumulator F} (faithful : p.Faithful m) (it : m.iteration = some i)
    (le : p.arena.rank r.index ≤ d) (h : (p.execute value depth r acc).run m = .ok (acc', m')) :
    p.perform (p.freshValue d (some i)) i depth r acc = .ok acc' ∧ p.Stays m m' := by
  induction depth generalizing r acc acc' m m' with
  | zero => cases h
  | succ depth ih =>
      rw [execute] at h
      obtain ⟨n, hn, h⟩ := Eval.lift_bind_eq_ok h
      rw [perform, bind_of_ok hn]
      cases kind : n.kind with
      | indexedWrite =>
          simp only [kind] at h
          obtain ⟨i', hi', h⟩ := Eval.iterationFor_bind_eq_ok h
          cases it.symm.trans hi'
          obtain ⟨v, hv, h⟩ := Eval.present_bind_eq_ok h
          simp only [argumentAt, hv]
          cases v with
          | const x =>
              obtain ⟨written, rfl⟩ := written_of_run h
              exact ⟨written, faithful.stays⟩
          | node a =>
              obtain ⟨x, m₁, read, h⟩ := Eval.bind_eq_ok h
              obtain ⟨own, less⟩ := argument_facts grounded hn (List.mem_of_getElem? hv)
              obtain ⟨fresh, stays⟩ := reads a m x m₁ faithful read
              obtain ⟨written, rfl⟩ := written_of_run h
              rw [own, it] at fresh
              exact ⟨(bind_of_ok (fresh d (less.trans_le le)) _).trans written, stays⟩
      | endIf =>
          simp only [kind] at h
          obtain ⟨chain, m₁, chained, h⟩ := Eval.bind_eq_ok h
          obtain ⟨collected, stays⟩ := chain_of_chainOf faithful hn chained
          obtain ⟨i', hi', h⟩ := Eval.iterationFor_bind_eq_ok h
          cases it.symm.trans (stays.iteration.symm.trans hi')
          obtain ⟨results, htaken, h⟩ := Eval.lift_bind_eq_ok h
          dsimp only
          rw [bind_of_ok collected, bind_of_ok htaken]
          refine Eval.foldlM_fresh (J := p.Stays m) (fun s hs acc m₂ acc' m₃ stays step => ?_)
            stays h
          obtain ⟨w, hw, step⟩ := Eval.lift_bind_eq_ok step
          obtain ⟨link, mem, hs⟩ := exists_of_taken htaken hs
          have path := (transGen_of_collectChain collected link mem s hs).tail (edge_of_guarded hw)
          obtain ⟨performed, stays'⟩ := ih stays.faithful (stays.iteration.trans it)
            ((grounded.rank_lt path).le.trans le) step
          exact ⟨(bind_of_ok hw _).trans performed, stays.trans stays'⟩
      | _ =>
          simp only [kind] at h
          cases h

/-- The results of a loop body do to the locations what they do afresh. -/
theorem performed_of_body {value : NodeRef → Eval F F} (reads : p.ReadsFresh value) {i depth : Nat}
    {rs : List NodeRef} (le : ∀ r ∈ rs, p.arena.rank r.index ≤ d) {acc acc' : Accumulator F}
    (faithful : p.Faithful m) (h : (do
      modify fun m => m.moveTo (some i)
      rs.foldlM (fun acc r => p.execute value depth r acc) acc : Eval F (Accumulator F)).run m =
        .ok (acc', m')) :
    rs.foldlM (fun acc r => p.perform (p.freshValue d (some i)) i depth r acc) acc = .ok acc' ∧
      p.Faithful m' := by
  have begun : p.Faithful (m.moveTo (some i)) := faithful.moveTo (some i)
  obtain ⟨performed, stays⟩ := Eval.foldlM_fresh (J := p.Stays (m.moveTo (some i)))
    (g := fun acc r => p.perform (p.freshValue d (some i)) i depth r acc)
    (fun r hr acc m₁ acc' m₂ stays step => by
      obtain ⟨performed, stays'⟩ := perform_of_execute grounded reads stays.faithful
        stays.iteration (le r hr) step
      exact ⟨performed, stays.trans stays'⟩) begun.stays h
  exact ⟨performed, stays.faithful⟩

/-- A loop writes what it writes when it is run afresh. -/
theorem runsFresh_runLoop (steady : p.arena.Steady) (depth : Nat) :
    p.RunsFresh (p.runLoop depth) := by
  induction depth with
  | zero =>
      intro loop m acc m' _ h
      cases h
  | succ depth ih =>
      intro loop m acc m' faithful h
      rw [runLoop] at h
      obtain ⟨n, hn, h⟩ := Eval.lift_bind_eq_ok h
      obtain ⟨v, hv, h⟩ := Eval.present_bind_eq_ok h
      cases v with
      | const x => cases h
      | node start =>
          simp only [pure_bind] at h
          obtain ⟨s, hs, h⟩ := Eval.lift_bind_eq_ok h
          obtain ⟨iterations, hiterations, h⟩ := Eval.present_bind_eq_ok h
          rw [Eval.run_get_bind] at h
          obtain ⟨acc', m₁, run, h⟩ := Eval.bind_eq_ok h
          cases h
          rw [iterate_eq, ← List.range_eq_range'] at run
          have reads := readsFresh_value grounded ih steady
          have below (r : NodeRef) (hr : r ∈ n.args.tail.filterMap Value.node?) :
              p.arena.rank r.index < p.arena.rank loop.index :=
            grounded.rank_lt_of_edge
              (Arena.edge_of_mem hn (List.mem_of_mem_tail (Value.mem_nodes.mp hr)))
          have ran {d : Nat} (le : p.arena.rank loop.index ≤ d) := Eval.foldlM_fresh
            (J := p.Faithful) (g := fun acc i =>
              (n.args.tail.filterMap Value.node?).foldlM (fun acc r =>
                p.perform (p.freshValue d (some i)) i p.depth r acc) acc)
            (fun i _ acc m₂ acc' m₃ faithful body => performed_of_body grounded reads
              (fun r hr => (below r hr).le.trans le) faithful body) faithful run
          refine ⟨fun d less => ?_, (ran le_rfl).2.moveTo m.iteration, rfl⟩
          obtain ⟨d, rfl⟩ := Nat.exists_eq_succ_of_ne_zero (Nat.ne_zero_of_lt less)
          rw [← Arena.eq_handle hn, freshLoop, bind_of_ok hn, hv]
          refine (bind_of_ok hs _).trans ?_
          rw [hiterations]
          exact (ran (Nat.le_of_lt_succ less)).1

/-! ## Outputs -/

theorem argument_of_output (steady : p.arena.Steady) {v : Value F} {x : F}
    (own : ∀ r, v = .node r → p.arena.owns r = true) (faithful : p.Faithful m)
    (out : m.iteration = none) (h : (p.output v).run m = .ok (x, m')) :
    argument (p.freshValue p.depth none) v = .ok x ∧ p.Stays m m' := by
  cases v with
  | const y =>
      cases h
      exact ⟨rfl, faithful.stays⟩
  | node r =>
      obtain ⟨fresh, stays⟩ :=
        readsFresh_value grounded (runsFresh_runLoop grounded steady p.depth) steady r m x m'
          faithful h
      rw [handle_eq (Arena.owns_iff.mp (own r rfl)).1, out] at fresh
      exact ⟨fresh p.depth (Nat.lt_succ_of_le (grounded.rank_le r.index)), stays⟩

/-- Outputs are computed one after another, and what is remembered in between stays
what is computed afresh. -/
theorem arguments_of_outputs (steady : p.arena.Steady) {vs : List (Value F)} {xs : List F}
    (own : ∀ r, .node r ∈ vs → p.arena.owns r = true) (faithful : p.Faithful m)
    (out : m.iteration = none) (h : (vs.mapM p.output).run m = .ok (xs, m')) :
    vs.mapM (argument (p.freshValue p.depth none)) = .ok xs ∧ p.Faithful m' := by
  induction vs generalizing m xs with
  | nil =>
      cases h
      exact ⟨rfl, faithful⟩
  | cons v vs ih =>
      rw [List.mapM_cons] at h
      obtain ⟨x, m₁, first, h⟩ := Eval.bind_eq_ok h
      obtain ⟨xs, m₂, rest, h⟩ := Eval.bind_eq_ok h
      cases h
      obtain ⟨value, stays⟩ := argument_of_output grounded steady
        (fun r eq => own r (eq ▸ List.mem_cons_self ..)) faithful out first
      obtain ⟨values, kept⟩ := ih (fun r mem => own r (List.mem_cons_of_mem _ mem)) stays.faithful
        (stays.iteration.trans out) rest
      refine ⟨?_, kept⟩
      rw [List.mapM_cons, bind_of_ok value, bind_of_ok values]
      rfl

end

end Problem

/-! ## Evaluation -/

namespace Arena

variable [Scalar F] {a : Arena F} {vs : List (Value F)} {inputs : List (List F)} {ys : List F}

/-- If no accumulation depends on the iteration, an evaluation that succeeds gives
what is computed with nothing remembered. -/
theorem Grounded.evaluate_fresh (grounded : a.Grounded) (steady : a.Steady)
    (own : ∀ r, .node r ∈ vs → a.owns r = true) (h : a.evaluate vs inputs = .ok ys) :
    a.evaluateFresh vs inputs = .ok ys := by
  obtain ⟨m, run⟩ := evaluate_eq_ok_iff.mp h
  exact (Problem.arguments_of_outputs (p := ⟨a, inputs.map List.toArray⟩) grounded steady own
    Problem.faithful_empty rfl run).1

/-- What it remembers is what is computed with nothing remembered. -/
theorem Grounded.exists_faithful (grounded : a.Grounded) (steady : a.Steady)
    (own : ∀ r, .node r ∈ vs → a.owns r = true) (h : a.evaluate vs inputs = .ok ys) :
    ∃ m, (vs.mapM (Problem.output ⟨a, inputs.map List.toArray⟩)).run Memory.empty = .ok (ys, m) ∧
      Problem.Faithful ⟨a, inputs.map List.toArray⟩ m := by
  obtain ⟨m, run⟩ := evaluate_eq_ok_iff.mp h
  exact ⟨m, run, (Problem.arguments_of_outputs (p := ⟨a, inputs.map List.toArray⟩) grounded steady
    own Problem.faithful_empty rfl run).2⟩

/-- In an arena that any operations led to, with no accumulation that depends on the
iteration, values of the arena have what is computed with nothing remembered. -/
theorem Reached.evaluate_fresh [BitPattern F] (reached : a.Reached) (steady : a.Steady)
    (own : ∀ r, .node r ∈ vs → a.owns r = true) (h : a.evaluate vs inputs = .ok ys) :
    a.evaluateFresh vs inputs = .ok ys :=
  reached.grounded.evaluate_fresh steady own h

/-- Of two accumulations over a loop that reads, under a condition, and is read by
another loop. -/
example : ((empty 0).after nested).evaluateFresh [.node ⟨0, 15⟩, .node ⟨0, 1⟩] [[5]] =
    .ok [40, 20] := by
  decide +kernel

/-- A loop that writes at each of two iterations an accumulation of what it reads. -/
def straying : List (Call ℚ) :=
  [.addPattern (.linear 1 0) 2, .push .loopStart [] [0, 2], .push .iteration [.node ⟨0, 0⟩] [],
    .push .indexedRead [.node ⟨0, 1⟩] [0, 0], .push .accumulate [.node ⟨0, 2⟩] [0],
    .push .indexedWrite [.node ⟨0, 3⟩, .node ⟨0, 1⟩] [0, 0],
    .push .loopEnd [.node ⟨0, 0⟩, .node ⟨0, 4⟩] [], .push .accumulate [.node ⟨0, 5⟩] [0],
    .push .accumulate [.node ⟨0, 5⟩] [1]]

/-- The accumulation of the first iteration is given at the second one too. -/
example : ((empty 0).after straying).evaluate [.node ⟨0, 6⟩, .node ⟨0, 7⟩] [[1, 2]] = .ok [1, 1] ∧
    ((empty 0).after straying).evaluateFresh [.node ⟨0, 6⟩, .node ⟨0, 7⟩] [[1, 2]] =
      .ok [1, 2] := by
  constructor <;> decide +kernel

end Arena

end LoopDiff
