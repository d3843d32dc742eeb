import LoopDiff.Proofs.Graph.Operations
import LoopDiff.Proofs.Graph.Steps

/-!
# LoopDiff.Proofs.Graph.Foreign

Operations on values that are not of the arena.

An operation looks at its operands before it touches the arena.  On values of
the arena it succeeds; otherwise it says what is wrong with them
(`Arena.Refuses`) and leaves the arena as it was (`Operation.vets_record`).

The powers zero and one are given without a look at the base, and of any node
(`Operation.looks`).
-/

namespace LoopDiff

variable {F α : Type}

namespace Arena

/-! ## Values of the arena -/

/-- Whether all nodes among some values belong to one arena. -/
def Together (vs : List (Value F)) : Prop :=
  ∀ l r, .node l ∈ vs → .node r ∈ vs → l.arena = r.arena

/-- What is said of values that are not all values of the arena: that two of
them belong to different arenas, or else that one of them is not there. -/
inductive Refuses (a : Arena F) (vs : List (Value F)) : Failure → Prop where
  | mismatch {l r : NodeRef} (left : .node l ∈ vs) (right : .node r ∈ vs)
      (apart : l.arena ≠ r.arena) : Refuses a vs (.error (.arenaMismatch l.arena r.arena))
  | stale {r : NodeRef} (mem : .node r ∈ vs) (foreign : a.owns r = false)
      (together : Together vs) : Refuses a vs (.error (.staleHandle r.arena r.index))

/-- The computation vets some values.  If all of them are values of the arena
it succeeds; if not it refuses them, and leaves the arena as it was. -/
structure Vets (a : Arena F) (vs : List (Value F)) (c : ArenaM F α) : Prop where
  succeeds : (∀ v ∈ vs, a.checkValue v = .ok ()) → Ends c a fun _ _ => True
  refuses : ¬(∀ v ∈ vs, a.checkValue v = .ok ()) →
    ∃ e, c.run.run a = (.error e, a) ∧ a.Refuses vs e

variable {a : Arena F} {v l r : Value F} {vs : List (Value F)}

theorem checkValue_cases (a : Arena F) (v : Value F) :
    a.checkValue v = .ok () ∨ ∃ r, v = .node r ∧ a.owns r = false ∧
      a.checkValue v = .error (.error (.staleHandle r.arena r.index)) := by
  cases v with
  | const x => exact .inl rfl
  | node r =>
      cases own : a.owns r with
      | true => exact .inl (by rw [checkValue, check, if_pos own])
      | false =>
          refine .inr ⟨r, rfl, own, ?_⟩
          rw [checkValue, check, own]
          rfl

theorem together_single (v : Value F) : Together [v] := by
  intro l r hl hr
  cases List.mem_singleton.mp hl
  cases List.mem_singleton.mp hr
  rfl

/-- Two values that pass as values of one arena. -/
theorem together_of_checkSameArena [Scalar F] (h : l.checkSameArena r = .ok ()) :
    Together [l, r] := by
  have both {s t : NodeRef} (hl : l = .node s) (hr : r = .node t) : s.arena = t.arena := by
    subst hl hr
    by_contra ne
    rw [Value.checkSameArena, if_neg ne] at h
    cases h
  intro s t hs ht
  simp only [List.mem_cons, List.not_mem_nil, or_false] at hs ht
  rcases hs with hs | hs <;> rcases ht with ht | ht
  · cases hs.trans ht.symm
    rfl
  · exact both hs.symm ht.symm
  · exact (both ht.symm hs.symm).symm
  · cases hs.trans ht.symm
    rfl

/-- Values are refused only if one of them is not a value of the arena. -/
theorem Refuses.exists_foreign {e : Failure} (h : a.Refuses vs e) :
    ∃ v ∈ vs, a.checkValue v ≠ .ok () := by
  cases h with
  | @mismatch l r left right apart =>
      by_contra own
      push Not at own
      exact apart ((checkValue_node (own _ left)).1.trans (checkValue_node (own _ right)).1.symm)
  | stale mem foreign together =>
      refine ⟨_, mem, fun own => ?_⟩
      rw [owns_iff.mpr (checkValue_node own)] at foreign
      cases foreign

/-! ## Checks -/

theorem vets_of_own {c : ArenaM F α} (own : ∀ v ∈ vs, a.checkValue v = .ok ())
    (h : Ends c a fun _ _ => True) : a.Vets vs c :=
  ⟨fun _ => h, fun other => absurd own other⟩

theorem Vets.congr {c d : ArenaM F α} (h : a.Vets vs c) (run : d.run.run a = c.run.run a) :
    a.Vets vs d :=
  ⟨fun own => by
    obtain ⟨x, a', hc, -⟩ := h.succeeds own
    exact ⟨x, a', run.trans hc, trivial⟩, fun other => run ▸ h.refuses other⟩

/-- A value is looked at. -/
theorem vets_check {f : Unit → ArenaM F α} (mem : v ∈ vs) (together : Together vs)
    (h : a.checkValue v = .ok () → a.Vets vs (f ())) :
    a.Vets vs (get >>= fun b => liftM (b.checkValue v) >>= f) := by
  have look {res : Except Failure Unit} (h : a.checkValue v = res) :
      (liftM (a.checkValue v) : ArenaM F Unit).run.run a = (res, a) := h ▸ run_lift ..
  rcases checkValue_cases a v with own | ⟨r, rfl, foreign, stale⟩
  · have run : (get >>= fun b => liftM (b.checkValue v) >>= f).run.run a = (f ()).run.run a :=
      (run_get_bind ..).trans (run_bind_ok (look own))
    exact (h own).congr run
  · refine ⟨fun all => ?_, fun _ => ⟨_, ?_, .stale mem foreign together⟩⟩
    · cases stale.symm.trans (all _ mem)
    · exact (run_get_bind ..).trans (run_bind_error (look stale))

/-- Two values are compared. -/
theorem vets_sameArena [Scalar F] {f : Unit → ArenaM F α} (hl : l ∈ vs) (hr : r ∈ vs)
    (h : l.checkSameArena r = .ok () → a.Vets vs (f ())) :
    a.Vets vs (liftM (l.checkSameArena r) >>= f) := by
  have look {res : Except Failure Unit} (h : l.checkSameArena r = res) :
      (liftM (l.checkSameArena r) : ArenaM F Unit).run.run a = (res, a) := h ▸ run_lift ..
  have pass (same : l.checkSameArena r = .ok ()) :
      a.Vets vs (liftM (l.checkSameArena r) >>= f) := by
    exact (h same).congr (run_bind_ok (look same))
  cases l with
  | const x => exact pass rfl
  | node s =>
      cases r with
      | const y => exact pass rfl
      | node t =>
          by_cases same : s.arena = t.arena
          · exact pass (by rw [Value.checkSameArena, if_pos same])
          · refine ⟨fun all => ?_, fun _ => ⟨_, ?_, .mismatch hl hr same⟩⟩
            · exact absurd ((checkValue_node (all _ hl)).1.trans
                (checkValue_node (all _ hr)).1.symm) same
            · exact run_bind_error (look (by rw [Value.checkSameArena, if_neg same]; rfl))

/-! ## Recording -/

theorem owns_pushed {n : Node F} {r : NodeRef} (own : a.owns r = true) :
    (a.pushed n).owns r = true := by
  obtain ⟨arena, lt⟩ := owns_iff.mp own
  exact owns_iff.mpr ⟨arena, by rw [pushed, size, Array.size_push]; exact Nat.lt_succ_of_lt lt⟩

theorem owns_pushed_self (a : Arena F) (n : Node F) : (a.pushed n).owns (a.handle a.size) = true :=
  owns_iff.mpr ⟨rfl, by simp [handle, pushed, size]⟩

theorem owns_marked {s r : NodeRef} (own : a.owns r = true) : (a.marked s).owns r = true := by
  obtain ⟨arena, lt⟩ := owns_iff.mp own
  exact owns_iff.mpr ⟨arena, by rwa [marked, size, Array.size_modify]⟩

theorem check_of_owns {r : NodeRef} (own : a.owns r = true) : a.checkValue (.node r) = .ok () := by
  rw [checkValue, check, if_pos own]

variable [Scalar F]

/-- A node is recorded if its arguments are there, and so is what was there
before. -/
theorem ends_push {kind : Kind} {args : List (Value F)} {info : List Nat}
    (own : ∀ v ∈ args, a.checkValue v = .ok ()) :
    Ends (push kind args info) a fun r a' =>
      a'.owns r = true ∧ ∀ s, a.owns s = true → a'.owns s = true := by
  refine ends_get_bind ?_
  rw [checkValues_eq own, pure_bind]
  have new : Ends (add ⟨kind, args, info, false⟩) a fun r a' =>
      a'.owns r = true ∧ ∀ s, a.owns s = true → a'.owns s = true :=
    ⟨_, _, rfl, owns_pushed_self a _, fun _ => owns_pushed⟩
  cases kind with
  | op code =>
      dsimp only
      cases found : a.find? (.op code) args info with
      | some i =>
          obtain ⟨-, n, hn, -⟩ := exists_of_findFrom? found
          have lt := (Array.getElem?_eq_some_iff.mp hn).1
          exact ends_pure ⟨owns_iff.mpr ⟨rfl, lt⟩, fun _ h => h⟩
      | none => exact new
  | _ => exact new

end Arena

/-! ## Arithmetic -/

namespace Value

open Arena

variable [Scalar F] {a : Arena F} {v : Value F}

/-- An identity that negates a value negates the right operand. -/
theorem eq_of_reduce_negation {op : OpCode} {l r : Value F} (h : reduce op l r = .negation v) :
    v = r := by
  unfold reduce at h
  split at h <;> (repeat' split at h) <;> cases h
  rfl

/-- A node on values of the arena is recorded. -/
theorem ends_pushNode {kind : Kind} {args : List (Value F)} {info : List Nat}
    (own : ∀ v ∈ args, a.checkValue v = .ok ()) :
    Ends (do return .node (← Arena.push kind args info) : ArenaM F (Value F)) a
      fun _ _ => True :=
  Worlds.ends_bind (ends_push own) fun _ _ _ => ends_pure trivial

theorem ends_recordUnary_own (op : OpCode) (own : a.checkValue v = .ok ()) :
    Ends (recordUnary op v) a fun _ _ => True :=
  ends_get_bind (ends_lift_bind own (ends_pushNode (by simpa using own)))

theorem ends_replace_own (op : Compound) {old : NodeRef} (own : a.owns old = true)
    (own' : a.checkValue v = .ok ()) : Ends (replace op old v) a fun _ _ => True := by
  have marked : ∀ w ∈ [.node old, v], (a.marked old).checkValue w = .ok () := by
    have kept (w : Value F) (h : a.checkValue w = .ok ()) :
        (a.marked old).checkValue w = .ok () := by
      cases w with
      | const x => rfl
      | node r => exact check_of_owns (owns_marked (owns_iff.mpr (checkValue_node h)))
    simpa using ⟨kept _ (check_of_owns own), kept _ own'⟩
  refine Worlds.ends_bind (ends_markOverwritten (check_of_owns own)) ?_
  rintro _ _ rfl
  exact ends_pushNode marked

theorem vets_binary (op : OpCode) (l r : Value F) (a : Arena F) :
    a.Vets [l, r] (binary op l r) := by
  by_cases constants : ∃ x y, l = .const x ∧ r = .const y
  case pos =>
      obtain ⟨x, y, rfl, rfl⟩ := constants
      exact vets_of_own (by simp [checkValue]) (ends_pure trivial)
  case neg =>
      rw [binary]
      case x => exact fun x y hl hr => constants ⟨x, y, hl, hr⟩
      refine vets_sameArena (by simp) (by simp) fun same => ?_
      have together := together_of_checkSameArena same
      refine vets_check (by simp) together fun left => ?_
      refine vets_check (by simp) together fun right => ?_
      have own : ∀ v ∈ [l, r], a.checkValue v = .ok () := by simpa using ⟨left, right⟩
      refine vets_of_own own ?_
      cases found : reduce op l r with
      | value v => exact ends_pure trivial
      | negation v => exact ends_recordUnary_own _ (eq_of_reduce_negation found ▸ right)
      | operation => exact ends_pushNode own

theorem vets_unary (op : OpCode) (v : Value F) (a : Arena F) : a.Vets [v] (unary op v) := by
  cases v with
  | const x => exact vets_of_own (by simp [checkValue]) (ends_pure trivial)
  | node r =>
      refine vets_check (by simp) (together_single _) fun own => ?_
      exact vets_of_own (by simpa using own) (ends_pushNode (by simpa using own))

theorem vets_powi (v : Value F) {n : Int32} (ne : n ≠ 0) (ne' : n ≠ 1) (a : Arena F) :
    a.Vets [v] (powi v n) := by
  cases v with
  | const x => exact vets_of_own (by simp [checkValue]) (ends_pure trivial)
  | node r =>
      rw [powi, if_neg ne, if_neg ne']
      refine vets_check (v := .node r) (by simp) (together_single _) fun own => ?_
      exact vets_of_own (by simpa using own) (ends_pushNode (by simpa using own))

theorem vets_toNode (v : Value F) (a : Arena F) : a.Vets [v] (toNode v) := by
  cases v with
  | const x =>
      have own : ∀ w ∈ [.const x], a.checkValue w = .ok () := by simp [checkValue]
      exact vets_of_own own (ends_pushNode own)
  | node r =>
      refine vets_check (v := .node r) (by simp) (together_single _) fun own => ?_
      exact vets_of_own (by simpa using own) (ends_pure trivial)

theorem vets_compound (op : Compound) (slot v : Value F) (a : Arena F) :
    a.Vets [slot, v] (compound op slot v) := by
  cases slot with
  | const x =>
      cases v with
      | const y => exact vets_of_own (by simp [checkValue]) (ends_pure trivial)
      | node r =>
          have together : Together [.const x, .node r] := by simp [Together]
          refine vets_check (v := .node r) (by simp) together fun right => ?_
          have own : ∀ w ∈ [.const x, .node r], a.checkValue w = .ok () := by
            simpa [checkValue] using right
          refine vets_of_own own ?_
          have asNode : Ends (do replace op (← Arena.push .assign [.const x] []) (.node r) :
              ArenaM F (Value F)) a fun _ _ => True := by
            refine Worlds.ends_bind (ends_push (by simp [checkValue])) ?_
            rintro old a' ⟨there, kept⟩
            have right' := kept r (owns_iff.mpr (checkValue_node right))
            exact ends_replace_own op there (check_of_owns right')
          cases op <;> dsimp only <;> (repeat' split) <;>
            first | exact ends_pure trivial | exact asNode
  | node old =>
      refine vets_sameArena (by simp) (by simp) fun same => ?_
      have together := together_of_checkSameArena same
      refine vets_check (by simp) together fun right => ?_
      refine vets_check (v := .node old) (by simp) together fun left => ?_
      have own : ∀ w ∈ [.node old, v], a.checkValue w = .ok () := by simpa using ⟨left, right⟩
      refine vets_of_own own ?_
      have recorded : Ends (replace op old v) a fun _ _ => True :=
        ends_replace_own op (owns_iff.mpr (checkValue_node left)) right
      have dropped : Ends (do
          Arena.markOverwritten old
          return .const Scalar.zero : ArenaM F (Value F)) a fun _ _ => True :=
        Worlds.ends_bind (ends_markOverwritten left) fun _ _ _ => ends_pure trivial
      cases op <;> dsimp only <;> (repeat' split) <;>
        first | exact ends_pure trivial | exact recorded | exact dropped

end Value

/-! ## Operations -/

namespace Operation

variable {V : Type}

/-- Whether an operation looks at its operands if they are nodes. -/
def looks : Operation V → Prop
  | powi _ n => n ≠ 0 ∧ n ≠ 1
  | _ => True

variable [Scalar F] {s : Operation (Value F)} {a a' : Arena F}

/-- An operation that looks at its operands records, or refuses them. -/
theorem vets_record (looks : s.looks) (a : Arena F) : a.Vets s.operands s.record := by
  cases s with
  | binary op l r => exact Value.vets_binary (.binary op) l r a
  | unary op v => exact Value.vets_unary (.unary op) v a
  | powi v n => exact Value.vets_powi v looks.1 looks.2 a
  | compound op slot v => exact Value.vets_compound op slot v a
  | toNode v => exact Value.vets_toNode v a

/-- The other operations take every operand and record nothing. -/
theorem run_of_not_looks (h : ¬s.looks) (a : Arena F) : ∃ z, s.record.run.run a = (.ok z, a) := by
  cases s with
  | powi v n =>
      cases v with
      | const x => exact ⟨_, rfl⟩
      | node r =>
          simp only [record, Value.powi]
          split
          case isTrue => exact ⟨_, rfl⟩
          case isFalse zero =>
              rw [if_pos (not_not.mp fun one => h ⟨zero, one⟩)]
              exact ⟨_, rfl⟩
  | _ => exact absurd trivial h

/-- An operation that fails leaves the arena as it was. -/
theorem run_error {e : Failure} (h : s.record.run.run a = (.error e, a')) :
    a' = a ∧ a.Refuses s.operands e := by
  by_cases looks : s.looks
  case neg =>
      obtain ⟨z, run⟩ := run_of_not_looks looks a
      cases run.symm.trans h
  case pos =>
      by_cases own : ∀ v ∈ s.operands, a.checkValue v = .ok ()
      case pos =>
          obtain ⟨z, b, run, -⟩ := (vets_record looks a).succeeds own
          cases run.symm.trans h
      case neg =>
          obtain ⟨e', run, refuses⟩ := (vets_record looks a).refuses own
          cases run.symm.trans h
          exact ⟨rfl, refuses⟩

/-- An operation fails exactly if it looks at its operands and one of them is
not a value of the arena. -/
theorem fails_iff : (∃ e, s.record.run.run a = (.error e, a)) ↔
    s.looks ∧ ∃ v ∈ s.operands, a.checkValue v ≠ .ok () := by
  constructor
  · rintro ⟨e, run⟩
    refine ⟨?_, (run_error run).2.exists_foreign⟩
    by_contra quiet
    obtain ⟨z, run'⟩ := run_of_not_looks quiet a
    cases run'.symm.trans run
  · rintro ⟨looks, v, hv, foreign⟩
    obtain ⟨e, run, -⟩ := (vets_record looks a).refuses fun own => foreign (own v hv)
    exact ⟨e, run⟩

/-- The power one of a node of another arena is the node itself, the power two
is refused. -/
example : ((powi (.node ⟨2, 0⟩) 1).record.run.run (Arena.empty 1 : Arena ℚ)).1 =
      .ok (.node ⟨2, 0⟩) ∧
    ((powi (.node ⟨2, 0⟩) 2).record.run.run (Arena.empty 1 : Arena ℚ)).1 =
      .error (.error (.staleHandle 2 0)) :=
  ⟨rfl, rfl⟩

end Operation

end LoopDiff
