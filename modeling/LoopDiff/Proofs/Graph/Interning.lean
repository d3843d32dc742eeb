import Std.Data.HashMap.Lemmas
import LoopDiff.Scalar.Native
import LoopDiff.Proofs.Loop.Recordings

/-!
# LoopDiff.Proofs.Graph.Interning

Elementary operations are recorded once.

A request for an elementary operation is answered with the node that records
it, if there is one.  This can be looked up in a table kept beside the nodes
(`Arena.Indexed`).  Its keys leave out which arena an argument belongs to and
hold numbers by their bits (`OpKey`), so zero and negative zero have different
keys although they are equal.

The table is exact (`Arena.Indexed.Exact`): it holds the nodes of elementary
operations and nothing else, each under its own key.  A key has one position
in a table, so no operation is recorded twice; and what is not in the table is
nowhere among the nodes.  An operation stays under the key it was entered with:
arguments are added to nodes of other kinds only, and a mark is not part of a
key (`Arena.Step.keyAt_iff`).

A search among the nodes gives the same answers (`Arena.Indexed.Sound.find?_eq`).
It may start after the arguments, since an elementary operation never comes
before its arguments (`Arena.Forward`).
-/

namespace LoopDiff

open Std

variable {F : Type}

/-! ## Keys -/

deriving instance Hashable for Binary, Unary, OpCode, Compound, Kind

deriving instance DecidableEq for Value, Node

/-- A base number type whose constants are told apart by their bits. -/
class BitPattern (F : Type) [Scalar F] where
  bits : F → UInt64
  same_iff (x y : F) : Scalar.same x y = true ↔ bits x = bits y

export BitPattern (bits)

instance : BitPattern Double where
  bits := Double.bits
  same_iff x y := by
    cases x
    cases y
    exact beq_iff_eq.trans (Double.mk.injEq ..).to_iff

instance : BitPattern Single where
  bits x := x.bits.toUInt64
  same_iff x y := by
    cases x
    cases y
    exact beq_iff_eq.trans ((Single.mk.injEq ..).to_iff.trans UInt32.toUInt64_inj.symm)

/-- An argument as the table sees it. -/
inductive ArgKey where
  | const (bits : UInt64)
  | node (index : Nat)
deriving DecidableEq, Hashable

/-- An operation as the table sees it. -/
structure OpKey where
  kind : Kind
  args : List ArgKey
  info : List Nat
deriving DecidableEq, Hashable

variable [Scalar F] [BitPattern F]

namespace Value

def key : Value F → ArgKey
  | const x => .const (bits x)
  | node r => .node r.index

/-- The same node, or numbers with the same bits. -/
inductive Agrees : Value F → Value F → Prop where
  | const {x y : F} (eq : bits x = bits y) : Agrees (.const x) (.const y)
  | node (r : NodeRef) : Agrees (.node r) (.node r)

theorem Agrees.refl (v : Value F) : v.Agrees v := by
  cases v with
  | const x => exact .const rfl
  | node r => exact .node r

theorem Agrees.key {v w : Value F} (h : v.Agrees w) : v.key = w.key := by
  cases h with
  | const eq => exact congrArg ArgKey.const eq
  | node r => rfl

/-- Arguments in one arena are known by their keys. -/
theorem agrees_of_key {v w : Value F}
    (home : ∀ r s, v = .node r → w = .node s → r.arena = s.arena) (h : v.key = w.key) :
    v.Agrees w := by
  cases v with
  | const x =>
      cases w with
      | const y => exact .const (ArgKey.const.inj h)
      | node s => cases h
  | node r =>
      cases w with
      | const y => cases h
      | node s =>
          have arena := home r s rfl rfl
          have index : r.index = s.index := ArgKey.node.inj h
          cases r
          cases s
          cases arena
          cases index
          exact .node _

theorem same_iff_agrees {v w : Value F} : v.same w = true ↔ v.Agrees w := by
  constructor
  · intro h
    cases v <;> cases w <;> simp only [same] at h
    · exact .const ((BitPattern.same_iff ..).mp h)
    · cases h
    · cases h
    · cases eq_of_beq h
      exact .node _
  · rintro (eq | r)
    · exact (BitPattern.same_iff ..).mpr eq
    · exact beq_self_eq_true r

theorem sameAll_iff_agrees {vs ws : List (Value F)} :
    sameAll vs ws = true ↔ List.Forall₂ Agrees vs ws := by
  induction vs generalizing ws with
  | nil => cases ws <;> simp [sameAll]
  | cons v vs ih =>
      cases ws with
      | nil => simp [sameAll]
      | cons w ws => rw [sameAll, Bool.and_eq_true, List.forall₂_cons, same_iff_agrees, ih]

theorem map_key_eq {vs ws : List (Value F)} (h : List.Forall₂ Agrees vs ws) :
    vs.map key = ws.map key := by
  induction h with
  | nil => rfl
  | cons agrees _ ih => rw [List.map_cons, List.map_cons, agrees.key, ih]

theorem mem_of_agrees {vs ws : List (Value F)} (h : List.Forall₂ Agrees vs ws) {r : NodeRef}
    (hr : .node r ∈ ws) : .node r ∈ vs := by
  induction h with
  | nil => exact hr
  | @cons v w _ _ agrees _ ih =>
      rcases List.mem_cons.mp hr with rfl | hr
      · cases agrees
        exact List.mem_cons_self ..
      · exact List.mem_cons_of_mem _ (ih hr)

end Value

/-- The key of a request. -/
def OpKey.of (kind : Kind) (args : List (Value F)) (info : List Nat) : OpKey :=
  ⟨kind, args.map Value.key, info⟩

def Node.key (n : Node F) : OpKey := .of n.kind n.args n.info

namespace Arena

variable {a a' : Arena F} {kind : Kind} {args : List (Value F)} {info : List Nat}

theorem forall₂_agrees {vs ws : List (Value F)} (hv : ∀ r, .node r ∈ vs → a.owns r = true)
    (hw : ∀ r, .node r ∈ ws → a.owns r = true) (h : vs.map Value.key = ws.map Value.key) :
    List.Forall₂ Value.Agrees vs ws := by
  induction vs generalizing ws with
  | nil =>
      cases ws with
      | nil => exact .nil
      | cons w ws => cases h
  | cons v vs ih =>
      cases ws with
      | nil => cases h
      | cons w ws =>
          obtain ⟨here, rest⟩ := List.cons.inj h
          refine .cons (Value.agrees_of_key ?_ here)
            (ih (fun r hr => hv r (List.mem_cons_of_mem _ hr))
              (fun r hr => hw r (List.mem_cons_of_mem _ hr)) rest)
          rintro r s rfl rfl
          exact (owns_iff.mp (hv r (List.mem_cons_self ..))).1.trans
            (owns_iff.mp (hw s (List.mem_cons_self ..))).1.symm

/-! ## Elementary operations among the nodes -/

/-- The node at a position is an elementary operation with a certain key. -/
def KeyAt (a : Arena F) (i : Nat) (key : OpKey) : Prop :=
  ∃ n code, a.nodes[i]? = some n ∧ n.kind = .op code ∧ n.key = key

/-- The node at a position is an elementary operation on certain arguments. -/
def OpAt (a : Arena F) (i : Nat) (code : OpCode) (args : List (Value F)) (info : List Nat) : Prop :=
  ∃ n, a.nodes[i]? = some n ∧ n.kind = .op code ∧ List.Forall₂ Value.Agrees n.args args ∧
    n.info = info

theorem OpAt.keyAt {i : Nat} {code : OpCode} (h : a.OpAt i code args info) :
    a.KeyAt i (.of (.op code) args info) := by
  obtain ⟨n, hn, kind, agrees, rfl⟩ := h
  exact ⟨n, code, hn, kind, by rw [Node.key, kind, OpKey.of, Value.map_key_eq agrees, OpKey.of]⟩

/-- In an arena a key stands for one operation. -/
theorem KeyAt.opAt {i : Nat} {code : OpCode} (owned : a.Owned)
    (own : ∀ r, .node r ∈ args → a.owns r = true)
    (h : a.KeyAt i (.of (.op code) args info)) : a.OpAt i code args info := by
  obtain ⟨n, -, hn, -, eq⟩ := h
  obtain ⟨kind, keys, rfl⟩ := OpKey.mk.inj eq
  exact ⟨n, hn, kind, forall₂_agrees (owned i n hn) own keys, rfl⟩

theorem opAt_of_records {i : Nat} {n : Node F} {code : OpCode} (hn : a.nodes[i]? = some n)
    (records : n.records (.op code) args info = true) : a.OpAt i code args info := by
  obtain ⟨same, info, kind⟩ := records_iff.mp records
  exact ⟨n, hn, kind, Value.sameAll_iff_agrees.mp same, info⟩

theorem keyAt_pushed (a : Arena F) (n : Node F) (i : Nat) (key : OpKey) :
    (a.pushed n).KeyAt i key ↔
      a.KeyAt i key ∨ i = a.size ∧ (∃ code, n.kind = .op code) ∧ n.key = key := by
  constructor
  · rintro ⟨m, code, hm, kind, eq⟩
    rcases getElem?_push_cases hm with hm | ⟨last, rfl⟩
    · exact .inl ⟨m, code, hm, kind, eq⟩
    · exact .inr ⟨last, ⟨code, kind⟩, eq⟩
  · rintro (⟨m, code, hm, kind, eq⟩ | ⟨rfl, ⟨code, kind⟩, eq⟩)
    · exact ⟨m, code, getElem?_push_of_some hm n, kind, eq⟩
    · exact ⟨n, code, node_pushed_self a n, kind, eq⟩

/-- Steps that add no elementary operation leave all of them as they are:
arguments are only added to nodes of other kinds, and a mark is not part of a
key. -/
theorem Step.keyAt_iff (h : a.Step (fun n => ∀ code, n.kind ≠ .op code) a') (i : Nat)
    (key : OpKey) : a'.KeyAt i key ↔ a.KeyAt i key := by
  cases h with
  | node n structural =>
      rw [keyAt_pushed, or_iff_left]
      rintro ⟨-, ⟨code, kind⟩, -⟩
      exact structural code kind
  | arguments target n args found appendable own away =>
      obtain ⟨-, hn⟩ := node_eq_ok_iff.mp found
      -- the node that gets the arguments collects them
      have other {m : Node F} {code : OpCode} (hm : a.nodes[i]? = some m)
          (kind : m.kind = .op code) : target.index ≠ i := by
        rintro rfl
        cases hm.symm.trans hn
        rw [kind] at appendable
        cases appendable
      constructor
      · rintro ⟨m, code, hm, kind, eq⟩
        rw [node_extended, Option.map_eq_some_iff] at hm
        obtain ⟨m, hm, rfl⟩ := hm
        rw [if_neg (other hm kind), List.append_nil] at eq
        exact ⟨m, code, hm, kind, eq⟩
      · rintro ⟨m, code, hm, kind, eq⟩
        refine ⟨m, code, ?_, kind, eq⟩
        rw [node_extended, hm, Option.map_some, if_neg (other hm kind), List.append_nil]
  | mark r =>
      constructor
      · rintro ⟨m, code, hm, kind, eq⟩
        rw [node_marked, Option.map_eq_some_iff] at hm
        obtain ⟨m, hm, rfl⟩ := hm
        exact ⟨m, code, hm, kind, eq⟩
      · rintro ⟨m, code, hm, kind, eq⟩
        exact ⟨{ m with overwritten := r.index = i || m.overwritten }, code,
          by rw [node_marked, hm]; rfl, kind, eq⟩
  | pattern p n => exact Iff.rfl

theorem Steps.keyAt_iff (h : a.Steps (fun n => ∀ code, n.kind ≠ .op code) a') (i : Nat)
    (key : OpKey) : a'.KeyAt i key ↔ a.KeyAt i key := by
  induction h with
  | refl => exact Iff.rfl
  | tail _ step ih => exact (step.keyAt_iff i key).trans ih

/-- Elementary operations come after their arguments. -/
def Forward (a : Arena F) : Prop :=
  ∀ (i : Nat) (n : Node F) (code : OpCode), a.nodes[i]? = some n → n.kind = .op code →
    ∀ r, .node r ∈ n.args → r.index < i

omit [BitPattern F] in
theorem Step.forward {shape : Node F → Prop} (h : a.Step shape a') (forward : a.Forward) :
    a'.Forward := by
  intro i m code hm kind r hr
  cases h with
  | node n shaped own =>
      rcases getElem?_push_cases hm with hm | ⟨rfl, rfl⟩
      · exact forward i m code hm kind r hr
      · exact (owns_iff.mp (own r hr)).2
  | arguments target n args found appendable own away =>
      rw [node_extended, Option.map_eq_some_iff] at hm
      obtain ⟨k, hk, rfl⟩ := hm
      rcases List.mem_append.mp hr with hr | hr
      · exact forward i k code hk kind r hr
      · split at hr
        case isTrue here =>
            obtain ⟨-, hn⟩ := node_eq_ok_iff.mp found
            cases (here ▸ hk).symm.trans hn
            rw [kind] at appendable
            cases appendable
        case isFalse => exact absurd hr List.not_mem_nil
  | mark s =>
      rw [node_marked, Option.map_eq_some_iff] at hm
      obtain ⟨k, hk, rfl⟩ := hm
      exact forward i k code hk kind r hr
  | pattern p n => exact forward i m code hm kind r hr

omit [BitPattern F] in
theorem Steps.forward {shape : Node F → Prop} (h : a.Steps shape a') (forward : a.Forward) :
    a'.Forward :=
  h.invariant forward fun _ _ step => step.forward

/-! ## Looking up -/

/-- An arena with a table of its elementary operations. -/
structure Indexed (F : Type) where
  arena : Arena F
  table : HashMap OpKey Nat

namespace Indexed

/-- No nodes, and no operations among them. -/
def empty (id : Nat) : Indexed F := ⟨.empty id, ∅⟩

/-- Records a node.  Elementary operations are looked up, and entered when
they are recorded. -/
def push (s : Indexed F) (kind : Kind) (args : List (Value F)) (info : List Nat) :
    Except Failure NodeRef × Indexed F :=
  let a := s.arena
  let pushed : Arena F := { a with nodes := a.nodes.push ⟨kind, args, info, false⟩ }
  match args.forM fun v => a.checkValue v with
  | .error e => (.error e, s)
  | .ok _ =>
    match kind with
    | .op _ =>
      match s.table[OpKey.of kind args info]? with
      | some i => (.ok (a.handle i), s)
      | none =>
        (.ok (a.handle a.size), ⟨pushed, s.table.insert (.of kind args info) a.size⟩)
    | _ => (.ok (a.handle a.size), { s with arena := pushed })

/-- Makes a call.  Calls other than `push` do not use the table. -/
def run (s : Indexed F) : Call F → Indexed F
  | .push kind args info => (s.push kind args info).2
  | c => { s with arena := (c.run.run.run s.arena).2 }

/-- After some calls, those that fail included. -/
def after (s : Indexed F) (calls : List (Call F)) : Indexed F := calls.foldl run s

/-- The table holds the elementary operations. -/
def Exact (s : Indexed F) : Prop :=
  ∀ (key : OpKey) (i : Nat), s.table[key]? = some i ↔ s.arena.KeyAt i key

variable {s : Indexed F}

/-- No operation is recorded twice. -/
theorem Exact.keyAt_inj (tabled : s.Exact) {key : OpKey} {i j : Nat} (hi : s.arena.KeyAt i key)
    (hj : s.arena.KeyAt j key) : i = j :=
  Option.some.inj (((tabled key i).mpr hi).symm.trans ((tabled key j).mpr hj))

end Indexed

end Arena

/-- A search passes over what does not pass the test. -/
theorem eq_false_of_findFrom? {α : Type} {xs : Array α} {test : α → Bool} {i j : Nat} {x : α}
    (h : findFrom? xs test i = none) (le : i ≤ j) (hx : xs[j]? = some x) : test x = false := by
  induction i using findFrom?.induct xs test with
  | case1 i lt found =>
      rw [findFrom?, dif_pos lt, if_pos found] at h
      cases h
  | case2 i lt next ih =>
      rw [findFrom?, dif_pos lt, if_neg next] at h
      rcases Nat.eq_or_lt_of_le le with rfl | lt'
      · rw [Array.getElem?_eq_getElem lt] at hx
        exact Option.some.inj hx ▸ Bool.eq_false_iff.mpr next
      · exact ih h lt'
  | case3 i past => exact absurd (Array.getElem?_eq_some_iff.mp hx).1 (by omega)

namespace Arena

omit [Scalar F] [BitPattern F] in
/-- A search for a node starts right after its arguments. -/
theorem pastArgs_le {i : Nat} {args : List (Value F)} (h : ∀ r, .node r ∈ args → r.index < i) :
    pastArgs args ≤ i := by
  have bounded (l : List NodeRef) (hl : ∀ r ∈ l, r.index < i) :
      ∀ k ≤ i, l.foldl (fun k r => max k (r.index + 1)) k ≤ i := by
    induction l with
    | nil => exact fun k hk => hk
    | cons r l ih =>
        have here := hl r (List.mem_cons_self ..)
        exact fun k hk => ih (fun r hr => hl r (List.mem_cons_of_mem _ hr)) _
          (Nat.max_le.mpr ⟨hk, here⟩)
  exact bounded _ (fun r hr => h r (Value.mem_nodes.mp hr)) 0 (Nat.zero_le i)

namespace Indexed

variable {s : Indexed F} {code : OpCode} {args : List (Value F)} {info : List Nat}

/-- What holds of an arena with its table. -/
structure Sound (s : Indexed F) : Prop where
  tabled : s.Exact
  owned : s.arena.Owned
  forward : s.arena.Forward

/-- The search and the table give the same answer. -/
theorem Sound.find?_eq (sound : s.Sound) (code : OpCode) (info : List Nat)
    (own : ∀ r, .node r ∈ args → s.arena.owns r = true) :
    s.arena.find? (.op code) args info = s.table[OpKey.of (.op code) args info]? := by
  cases found : s.arena.find? (.op code) args info with
  | some i =>
      obtain ⟨n, hn, records⟩ := exists_of_find? found
      exact ((sound.tabled _ i).mpr (opAt_of_records hn records).keyAt).symm
  | none =>
      refine (Option.eq_none_iff_forall_ne_some.mpr fun i entry => ?_).symm
      obtain ⟨n, hn, kind, agrees, rfl⟩ := ((sound.tabled _ i).mp entry).opAt sound.owned own
      have records : n.records (.op code) args n.info = true :=
        records_iff.mpr ⟨Value.sameAll_iff_agrees.mpr agrees, rfl, kind⟩
      -- the arguments asked for are those of the node, so they come before it
      have past : pastArgs args ≤ i := pastArgs_le fun r hr =>
        sound.forward i n code hn kind r (Value.mem_of_agrees agrees hr)
      rw [eq_false_of_findFrom? found past hn] at records
      cases records

omit [Scalar F] [BitPattern F] in
/-- The check of arguments looks at the arena only. -/
theorem run_checks (a : Arena F) (args : List (Value F)) :
    ((args.forM fun v => (liftM (a.checkValue v) : ArenaM F Unit)).run.run a) =
      (args.forM fun v => a.checkValue v, a) := by
  induction args with
  | nil => rfl
  | cons v args ih =>
      rw [List.forM, List.forM]
      cases a.checkValue v with
      | error e => rfl
      | ok _ => exact ih

/-! ### What a push comes to -/

theorem push_refused {kind : Kind} {e : Failure}
    (checked : (args.forM fun v => s.arena.checkValue v) = .error e) :
    s.push kind args info = (.error e, s) := by
  cases kind <;> simp only [push, checked]

theorem push_found {i : Nat} (checked : (args.forM fun v => s.arena.checkValue v) = .ok ())
    (entry : s.table[OpKey.of (.op code) args info]? = some i) :
    s.push (.op code) args info = (.ok (s.arena.handle i), s) := by
  simp only [push, checked, entry]

theorem push_entered (checked : (args.forM fun v => s.arena.checkValue v) = .ok ())
    (entry : s.table[OpKey.of (.op code) args info]? = none) :
    s.push (.op code) args info = (.ok (s.arena.handle s.arena.size),
      ⟨s.arena.pushed ⟨.op code, args, info, false⟩,
        s.table.insert (.of (.op code) args info) s.arena.size⟩) := by
  simp only [push, checked, entry]
  rfl

theorem push_structural {kind : Kind} (checked : (args.forM fun v => s.arena.checkValue v) = .ok ())
    (structural : ∀ code, kind ≠ .op code) :
    s.push kind args info = (.ok (s.arena.handle s.arena.size),
      { s with arena := s.arena.pushed ⟨kind, args, info, false⟩ }) := by
  cases kind with
  | op code => exact absurd rfl (structural code)
  | _ =>
      simp only [push, checked]
      rfl

/-- Looking an operation up gives what searching for it gives. -/
theorem Sound.push_eq (sound : s.Sound) (kind : Kind) (args : List (Value F)) (info : List Nat) :
    (s.push kind args info).1 = ((Arena.push kind args info).run.run s.arena).1 ∧
      (s.push kind args info).2.arena = ((Arena.push kind args info).run.run s.arena).2 := by
  have checks := run_checks s.arena args
  cases checked : args.forM fun v => s.arena.checkValue v with
  | error e =>
      rw [checked] at checks
      have run : (Arena.push kind args info).run.run s.arena = (.error e, s.arena) :=
        (run_get_bind ..).trans (run_bind_error checks)
      rw [run, push_refused checked]
      exact ⟨rfl, rfl⟩
  | ok _ =>
      obtain ⟨r, run, all⟩ := run_checkValues s.arena s.arena args
      cases run.symm.trans (checks.trans (congrArg (·, _) checked))
      have own := owns_of_checkValue (all rfl)
      by_cases op : ∃ code, kind = .op code
      · obtain ⟨code, rfl⟩ := op
        have found := sound.find?_eq code info own
        cases entry : s.table[OpKey.of (.op code) args info]? with
        | some i =>
            rw [run_push_found own (found.trans entry), push_found checked entry]
            exact ⟨rfl, rfl⟩
        | none =>
            rw [run_push_fresh own fun _ _ => found.trans entry, push_entered checked entry]
            exact ⟨rfl, rfl⟩
      · have structural : ∀ code, kind ≠ .op code := fun code eq => op ⟨code, eq⟩
        rw [run_push_fresh own fun code eq => absurd eq (structural code),
          push_structural checked structural]
        exact ⟨rfl, rfl⟩

/-- An arena without nodes has an empty table. -/
theorem sound_empty (id : Nat) : (empty id : Indexed F).Sound where
  tabled key i := by
    constructor
    · intro entry
      rw [empty, HashMap.getElem?_empty] at entry
      cases entry
    · rintro ⟨n, code, hn, -⟩
      cases hn
  owned := owned_empty id
  forward i n code hn := by cases hn

/-- A new operation is entered at the position of its node. -/
theorem Exact.insert {n : Node F} (tabled : s.Exact) (code : OpCode) (kind : n.kind = .op code)
    (fresh : s.table[n.key]? = none) :
    Exact ⟨s.arena.pushed n, s.table.insert n.key s.arena.size⟩ := by
  intro key i
  rw [HashMap.getElem?_insert, keyAt_pushed]
  split
  case isTrue here =>
      cases eq_of_beq here
      constructor
      · intro entry
        exact .inr ⟨(Option.some.inj entry).symm, ⟨code, kind⟩, rfl⟩
      · rintro (recorded | ⟨rfl, -⟩)
        · rw [(tabled _ i).mpr recorded] at fresh
          cases fresh
        · rfl
  case isFalse other =>
      rw [tabled, or_iff_left]
      rintro ⟨-, -, rfl⟩
      exact other (beq_self_eq_true n.key)

theorem Sound.exact_push (sound : s.Sound) (kind : Kind) (args : List (Value F)) (info : List Nat) :
    (s.push kind args info).2.Exact := by
  cases checked : args.forM fun v => s.arena.checkValue v with
  | error e =>
      rw [push_refused checked]
      exact sound.tabled
  | ok _ =>
      by_cases op : ∃ code, kind = .op code
      · obtain ⟨code, rfl⟩ := op
        cases entry : s.table[OpKey.of (.op code) args info]? with
        | some i =>
            rw [push_found checked entry]
            exact sound.tabled
        | none =>
            rw [push_entered checked entry]
            exact sound.tabled.insert (n := ⟨.op code, args, info, false⟩) code rfl entry
      · have structural : ∀ code, kind ≠ .op code := fun code eq => op ⟨code, eq⟩
        rw [push_structural checked structural]
        intro key i
        refine (sound.tabled key i).trans ((keyAt_pushed ..).trans (or_iff_left ?_)).symm
        rintro ⟨-, ⟨code, kind⟩, -⟩
        exact structural code kind

omit [BitPattern F] in
/-- Calls other than `push` record no elementary operation. -/
theorem moves_structural {c : Call F} (other : ∀ kind args info, c ≠ .push kind args info) :
    Moves (fun n => ∀ code, n.kind ≠ .op code) c.run := by
  cases c with
  | push kind args info => exact absurd rfl (other kind args info)
  | newIndependent array position =>
      exact (moves_newIndependent nofun).bind fun _ => moves_pure ()
  | newIndependents array count =>
      exact (moves_newIndependents count fun _ => nofun).bind fun _ => moves_pure ()
  | append target args => exact moves_append target args
  | markOverwritten r => exact moves_markOverwritten r
  | addPattern p iterations => exact (moves_addPattern p iterations).bind fun _ => moves_pure ()

omit [Scalar F] [BitPattern F] in
theorem snd_run_discard {α : Type} (c : ArenaM F α) (a : Arena F) :
    ((c >>= fun _ => (pure () : ArenaM F Unit)).run.run a).2 = (c.run.run a).2 := by
  rw [run_bind]
  cases c.run.run a with
  | mk r a' => cases r <;> rfl

/-- A call does to the arena what it does without the table. -/
theorem Sound.run_arena (sound : s.Sound) (c : Call F) :
    (s.run c).arena = (c.run.run.run s.arena).2 := by
  cases c with
  | push kind args info => exact (sound.push_eq kind args info).2.trans (snd_run_discard ..).symm
  | _ => rfl

theorem Sound.run (sound : s.Sound) (c : Call F) : (s.run c).Sound := by
  have arena := sound.run_arena c
  have steps := c.moves s.arena
  refine ⟨?_, arena ▸ steps.owned sound.owned, arena ▸ steps.forward sound.forward⟩
  by_cases pushes : ∃ kind args info, c = .push kind args info
  · obtain ⟨kind, args, info, rfl⟩ := pushes
    exact sound.exact_push kind args info
  · have other : ∀ kind args info, c ≠ .push kind args info := fun kind args info eq =>
      pushes ⟨kind, args, info, eq⟩
    have table : (s.run c).table = s.table := by
      cases c with
      | push kind args info => exact absurd rfl (other kind args info)
      | _ => rfl
    intro key i
    rw [table, arena, (moves_structural other s.arena).keyAt_iff]
    exact sound.tabled key i

theorem Sound.after (sound : s.Sound) (calls : List (Call F)) :
    (s.after calls).Sound ∧ (s.after calls).arena = s.arena.after calls := by
  induction calls generalizing s with
  | nil => exact ⟨sound, rfl⟩
  | cons c calls ih =>
      obtain ⟨sound', arena⟩ := ih (sound.run c)
      refine ⟨sound', arena.trans ?_⟩
      rw [sound.run_arena]
      rfl

end Indexed

/-! ## Any operations -/

variable {a a' : Arena F} {args : List (Value F)} {info : List Nat}

omit [BitPattern F] in
theorem moves_recordUnary (op : OpCode) (v : Value F) :
    Moves (fun _ => True) (Value.recordUnary op v) :=
  moves_get.bind fun _ => (moves_lift _).bind fun _ => (moves_push trivial).bind fun _ =>
    moves_pure _

omit [BitPattern F] in
/-- An operation that is asked for by its code, whatever its arity. -/
theorem moves_binary (op : OpCode) (v w : Value F) :
    Moves (fun _ => True) (Value.binary op v w) := by
  rw [Value.binary.eq_def]
  split
  case h_1 => exact moves_pure _
  case h_2 =>
      refine (moves_lift _).bind fun _ => moves_get.bind fun _ => (moves_lift _).bind fun _ =>
        moves_get.bind fun _ => (moves_lift _).bind fun _ => ?_
      split
      case h_1 => exact moves_pure _
      case h_2 => exact moves_recordUnary _ _
      case h_3 => exact (moves_push trivial).bind fun _ => moves_pure _

omit [BitPattern F] in
theorem moves_unary (op : OpCode) (v : Value F) : Moves (fun _ => True) (Value.unary op v) := by
  cases v with
  | const x => exact moves_pure _
  | node r => exact moves_recordUnary op (.node r)

/-- One operation, whether it succeeds or not: a call, an operation on values
with any code, an operator, or an operation on a loop. -/
inductive Operates : Arena F → Arena F → Prop where
  | call (a : Arena F) (c : Call F) : Operates a (c.run.run.run a).2
  | binary (a : Arena F) (op : OpCode) (v w : Value F) :
      Operates a ((Value.binary op v w).run.run a).2
  | unary (a : Arena F) (op : OpCode) (v : Value F) : Operates a ((Value.unary op v).run.run a).2
  | recording {a a' : Arena F} (traces : a.Traces a') : Operates a a'

/-- An arena that some operations lead to. -/
def Reached (a : Arena F) : Prop := ∃ id, Relation.ReflTransGen Operates (empty id) a

omit [BitPattern F] in
theorem Operates.exists_calls (h : a.Operates a') :
    ∃ calls : List (Call F), a.after calls = a' := by
  cases h with
  | call c => exact ⟨[c], rfl⟩
  | binary op v w => exact (moves_binary op v w a).exists_calls
  | unary op v => exact (moves_unary op v a).exists_calls
  | recording traces => exact traces.steps.exists_calls

omit [BitPattern F] in
/-- All operations come down to calls. -/
theorem Reached.exists_calls (h : a.Reached) :
    ∃ (id : Nat) (calls : List (Call F)), (empty id).after calls = a := by
  obtain ⟨id, operates⟩ := h
  induction operates with
  | refl => exact ⟨id, [], rfl⟩
  | tail _ step ih =>
      obtain ⟨id, calls, rfl⟩ := ih
      obtain ⟨more, rfl⟩ := step.exists_calls
      exact ⟨id, calls ++ more, after_append ..⟩

namespace Indexed

variable {s : Indexed F} {code : OpCode}

/-- A push that succeeds answers with a node that records what was asked for,
and records it only if there is none. -/
theorem Sound.push_ok (sound : s.Sound) {r : NodeRef}
    (run : (Arena.push (.op code) args info).run.run s.arena = (.ok r, a')) :
    r.arena = a'.id ∧ a'.OpAt r.index code args info ∧
      ((∃ i, s.arena.OpAt i code args info) → a' = s.arena) ∧
      ((¬∃ i, s.arena.OpAt i code args info) →
        a' = s.arena.pushed ⟨.op code, args, info, false⟩) := by
  rcases run_push (.op code) args info s.arena with
    ⟨e, run'⟩ | ⟨own, ⟨-, i, -, found, run'⟩ | ⟨fresh, run'⟩⟩ <;> cases run.symm.trans run'
  · obtain ⟨n, hn, records⟩ := exists_of_find? found
    have here := opAt_of_records hn records
    exact ⟨rfl, here, fun _ => rfl, fun none => absurd ⟨i, here⟩ none⟩
  · refine ⟨rfl, ⟨_, node_pushed_self .., rfl, List.forall₂_same.mpr fun v _ => .refl v, rfl⟩,
      fun ⟨i, here⟩ => ?_, fun _ => rfl⟩
    -- what the table does not hold is nowhere among the nodes
    have absent := sound.find?_eq code info own
    rw [fresh code rfl, (sound.tabled _ i).mpr here.keyAt] at absent
    cases absent

end Indexed

/-- Elementary operations are interned, whatever operations led to an arena.
No operation is recorded twice; a push of an operation answers with a node
that records exactly this operation, and adds a node if and only if there was
none.  Keeping a table of operations beside the nodes gives the same arena and
the same answers, and the table holds the operations of the arena and nothing
else. -/
theorem Reached.interned (h : a.Reached) :
    (∀ (i j : Nat) (code : OpCode) (args : List (Value F)) (info : List Nat),
      a.OpAt i code args info → a.OpAt j code args info → i = j) ∧
    (∀ (code : OpCode) (args : List (Value F)) (info : List Nat) (r : NodeRef) (a' : Arena F),
      (push (.op code) args info).run.run a = (.ok r, a') →
        r.arena = a'.id ∧ a'.OpAt r.index code args info ∧
          ((∃ i, a.OpAt i code args info) → a' = a) ∧
          ((¬∃ i, a.OpAt i code args info) → a' = a.pushed ⟨.op code, args, info, false⟩)) ∧
    ∃ (id : Nat) (calls : List (Call F)), a = (empty id).after calls ∧
      ((Indexed.empty id).after calls).arena = a ∧ ((Indexed.empty id).after calls).Exact ∧
      ∀ (kind : Kind) (args : List (Value F)) (info : List Nat),
        (((Indexed.empty id).after calls).push kind args info).1 =
            ((push kind args info).run.run a).1 ∧
          (((Indexed.empty id).after calls).push kind args info).2.arena =
            ((push kind args info).run.run a).2 := by
  obtain ⟨id, calls, rfl⟩ := h.exists_calls
  obtain ⟨sound, arena⟩ := (Indexed.sound_empty id).after (F := F) calls
  have arena : ((Indexed.empty id).after calls).arena = (empty id).after calls := arena
  refine ⟨fun i j code args info hi hj => ?_, fun code args info r a' run => ?_,
    id, calls, rfl, arena, sound.tabled, fun kind args info => ?_⟩
  · rw [← arena] at hi hj
    exact sound.tabled.keyAt_inj hi.keyAt hj.keyAt
  · rw [← arena] at run ⊢
    exact sound.push_ok run
  · rw [← arena]
    exact sound.push_eq kind args info

/-- An input to which zero is added, then negative zero, then zero again after
the first sum was marked. -/
def zeros : List (Call Double) :=
  [.newIndependent 0 0, .push (.op (.binary .add)) [.node ⟨0, 0⟩, .const ⟨0⟩] [],
    .push (.op (.binary .add)) [.node ⟨0, 0⟩, .const ⟨0x8000000000000000⟩] [],
    .markOverwritten ⟨0, 1⟩, .push (.op (.binary .add)) [.node ⟨0, 0⟩, .const ⟨0⟩] []]

/-- Zero and negative zero make two sums, and there is no third. -/
theorem interned_zeros : ((empty 0).after zeros).Reached ∧ ((empty 0).after zeros).size = 3 ∧
    ∀ (r : NodeRef) (a' : Arena Double),
      (push (.op (.binary .add)) [.node ⟨0, 0⟩, .const ⟨0x8000000000000000⟩] []).run.run
        ((empty 0).after zeros) = (.ok r, a') → r.index = 2 ∧ a' = (empty 0).after zeros := by
  have reached : ((empty 0).after zeros).Reached :=
    ⟨0, .tail (.tail (.tail (.tail (.tail .refl (.call ..)) (.call ..)) (.call ..)) (.call ..))
      (.call ..)⟩
  have two : ((empty 0).after zeros).OpAt 2 (.binary .add)
      [.node ⟨0, 0⟩, .const ⟨0x8000000000000000⟩] [] :=
    ⟨⟨.op (.binary .add), [.node ⟨0, 0⟩, .const ⟨0x8000000000000000⟩], [], false⟩,
      by decide +kernel, rfl, .cons (.node _) (.cons (.const rfl) .nil), rfl⟩
  obtain ⟨unique, pushes, -⟩ := reached.interned
  refine ⟨reached, by decide +kernel, fun r a' run => ?_⟩
  obtain ⟨-, here, kept, -⟩ := pushes _ _ _ r a' run
  have same := kept ⟨2, two⟩
  exact ⟨unique _ _ _ _ _ (same ▸ here) two, same⟩

end Arena

end LoopDiff
