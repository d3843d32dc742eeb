import LoopDiff.Proofs.Pattern
import LoopDiff.Proofs.Yields
import LoopDiff.Graph.Recording

/-!
# LoopDiff.Proofs.Graph.Extension

Arenas that grow.

The worlds of a recording are arenas, and a later arena has everything that
an earlier one has, unchanged (`a ≤ a'`).  Adding nodes and registering
patterns are of this kind.  Giving a node more arguments is not: it keeps
every node but one (`Arena.Keeps`).

A graph is built in tiers (`Kind.tier`): numbers and writes at the bottom,
then branches, loops, and what is made of loops.  No node has an argument
of a higher tier (`Arena.Tiered`), so a search along arguments never climbs.
-/

namespace LoopDiff

variable {F : Type}

/-! ## Arrays that grow -/

theorem getElem?_push_of_some {α : Type} {xs : Array α} {i : Nat} {y : α} (h : xs[i]? = some y)
    (x : α) : (xs.push x)[i]? = some y := by
  have lt := (Array.getElem?_eq_some_iff.mp h).1
  rw [Array.getElem?_push_lt lt, ← h, Array.getElem?_eq_getElem lt]

theorem getElem?_push_cases {α : Type} {xs : Array α} {x y : α} {i : Nat}
    (h : (xs.push x)[i]? = some y) : xs[i]? = some y ∨ i = xs.size ∧ y = x := by
  rw [Array.getElem?_push] at h
  split at h
  case isTrue last => exact .inr ⟨last, (Option.some.inj h).symm⟩
  case isFalse => exact .inl h

/-! ## Nodes among values -/

theorem Value.mem_nodes {vs : List (Value F)} {r : NodeRef} :
    r ∈ vs.filterMap Value.node? ↔ .node r ∈ vs := by
  rw [List.mem_filterMap]
  constructor
  · rintro ⟨v, hv, eq⟩
    cases v with
    | const x => cases eq
    | node s =>
        cases eq
        exact hv
  · exact fun hr => ⟨.node r, hr, rfl⟩

/-! ## Tiers -/

/-- The tier of a kind of node.  Arguments come from the same tier or from
below. -/
def Kind.tier : Kind → Nat
  | startIf | elseIf | otherwise | endIf | branchResult => 1
  | loopEnd => 2
  | accumulate | synonym => 3
  | _ => 0

theorem Kind.tier_le (kind : Kind) : kind.tier ≤ 3 := by
  cases kind <;> simp [tier]

theorem Kind.not_appendable_of_tier {kind : Kind} (h : kind.tier = 0) :
    kind.isAppendable = false := by
  cases kind <;> first | rfl | cases h

/-- Whether a node of this kind holds a number that a recording computes
with. -/
def Kind.isValue : Kind → Bool
  | independent | assign | op _ | compound _ | indexedRead => true
  | _ => false

/-- Whether a node of this kind stays as it is recorded: it gets no more
arguments, and no slot holds it. -/
def Kind.isFixed (kind : Kind) : Bool := !kind.isAppendable && !kind.isValue

theorem Kind.isAppendable_of_isFixed {kind : Kind} (h : kind.isFixed = true) :
    kind.isAppendable = false := by
  rw [isFixed, Bool.and_eq_true, Bool.not_eq_true'] at h
  exact h.1

namespace Arena

/-- What the arguments of a node of an arena have to be. -/
def Fits (a : Arena F) (kind : Kind) (args : List (Value F)) : Prop :=
  ∀ r, .node r ∈ args → r.arena = a.id ∧ ∃ n, a.nodes[r.index]? = some n ∧ n.kind.tier ≤ kind.tier

/-- Every node has its arguments from its own tier or from below. -/
def Tiered (a : Arena F) : Prop :=
  ∀ (i : Nat) (n : Node F), a.nodes[i]? = some n → a.Fits n.kind n.args

/-- Every node has its arguments from before the position `base` or, if it is
not itself from there, from its own tier or from below. -/
def TieredFrom (a : Arena F) (base : Nat) : Prop :=
  ∀ (i : Nat) (n : Node F), a.nodes[i]? = some n → ∀ r, .node r ∈ n.args → r.arena = a.id ∧
    ∃ m, a.nodes[r.index]? = some m ∧ (r.index < base ∨ base ≤ i ∧ m.kind.tier ≤ n.kind.tier)

theorem tieredFrom_zero {a : Arena F} : a.TieredFrom 0 ↔ a.Tiered := by
  simp [TieredFrom, Tiered, Fits]

/-- The arena `a'` has what `a` has.  A node may have changed, though not in
kind, unless `P` holds of its position and kind. -/
structure Keeps (P : Nat → Kind → Prop) (a a' : Arena F) : Prop where
  id_eq : a'.id = a.id
  node {i : Nat} {n : Node F} : a.nodes[i]? = some n → P i n.kind → a'.nodes[i]? = some n
  kind {i : Nat} {n : Node F} : a.nodes[i]? = some n →
    ∃ n', a'.nodes[i]? = some n' ∧ n'.kind = n.kind
  pattern {i : Nat} {p : Pattern × Nat} : a.patterns[i]? = some p → a'.patterns[i]? = some p
  /-- Tiers are kept from a position on, if nodes before it are. -/
  tieredFrom {base : Nat} : base ≤ a.size → (∀ (i : Nat) (n : Node F), a.nodes[i]? = some n →
    i < base → n.kind.isAppendable = true → P i n.kind) → a.TieredFrom base → a'.TieredFrom base

section

variable {P Q : Nat → Kind → Prop} {a a' a'' : Arena F}

theorem Keeps.refl (P : Nat → Kind → Prop) (a : Arena F) : a.Keeps P a :=
  ⟨rfl, fun h _ => h, fun h => ⟨_, h, rfl⟩, fun h => h, fun _ _ h => h⟩

theorem Keeps.size_le (h : a.Keeps P a') : a.size ≤ a'.size := by
  by_contra lt
  obtain ⟨n', at_, -⟩ := h.kind (Array.getElem?_eq_getElem (Nat.lt_of_not_le lt))
  exact Nat.lt_irrefl _ (Array.getElem?_eq_some_iff.mp at_).1

theorem Keeps.trans (h : a.Keeps P a') (h' : a'.Keeps P a'') : a.Keeps P a'' := by
  refine ⟨h'.id_eq.trans h.id_eq, fun hn hP => h'.node (h.node hn hP) hP, fun hn => ?_,
    fun hp => h'.pattern (h.pattern hp), fun le kept tiered => ?_⟩
  · obtain ⟨n', hn', eq⟩ := h.kind hn
    obtain ⟨n'', hn'', eq'⟩ := h'.kind hn'
    exact ⟨n'', hn'', eq'.trans eq⟩
  · refine h'.tieredFrom (le.trans h.size_le) (fun i n' hn' lt appendable => ?_)
      (h.tieredFrom le kept tiered)
    have hn := Array.getElem?_eq_getElem (lt.trans_le le)
    obtain ⟨n, at_, eq⟩ := h.kind hn
    cases hn'.symm.trans at_
    exact eq ▸ kept i _ hn lt (eq ▸ appendable)

/-- What is kept of an arena depends on the nodes that it has. -/
theorem Keeps.of_nodes (h : a.Keeps P a')
    (imp : ∀ i n, a.nodes[i]? = some n → Q i n.kind → P i n.kind) : a.Keeps Q a' :=
  ⟨h.id_eq, fun hn hQ => h.node hn (imp _ _ hn hQ), h.kind, h.pattern, fun le kept =>
    h.tieredFrom le fun i n hn lt appendable => imp i n hn (kept i n hn lt appendable)⟩

theorem Keeps.mono (h : a.Keeps P a') (imp : ∀ i k, Q i k → P i k) : a.Keeps Q a' :=
  h.of_nodes fun i n _ => imp i n.kind

theorem Keeps.tiered (h : a.Keeps P a') (tiered : a.Tiered) : a'.Tiered :=
  tieredFrom_zero.mp (h.tieredFrom (Nat.zero_le _) (fun _ _ _ lt => absurd lt (Nat.not_lt_zero _))
    (tieredFrom_zero.mpr tiered))

end

instance : Preorder (Arena F) where
  le := Keeps fun _ _ => True
  le_refl := Keeps.refl _
  le_trans _ _ _ := Keeps.trans

variable {P : Nat → Kind → Prop} {a a' a'' : Arena F}

theorem keeps_of_le (h : a ≤ a') : a.Keeps P a' :=
  Keeps.mono h fun _ _ _ => trivial

/-- An arena that only changes behind an earlier one extends the earlier
one. -/
theorem le_of_behind (h : a ≤ a') (h' : a'.Keeps P a'') (behind : ∀ i k, i < a.size → P i k) :
    a ≤ a'' :=
  ((keeps_of_le h).trans h').of_nodes fun i n hn _ =>
    behind i n.kind (Array.getElem?_eq_some_iff.mp hn).1

theorem tieredFrom_of_le {base : Nat} (h : a ≤ a') (le : base ≤ a.size)
    (tiered : a.TieredFrom base) : a'.TieredFrom base :=
  Keeps.tieredFrom h le (fun _ _ _ _ _ => trivial) tiered

theorem node_of_le (h : a ≤ a') {i : Nat} {n : Node F} (hn : a.nodes[i]? = some n) :
    a'.nodes[i]? = some n :=
  Keeps.node h hn trivial

/-- The arena `a'` computes what `a` computes: it has all nodes of the lowest
tier, though some may have been overwritten since. -/
structure Preserves (a a' : Arena F) : Prop where
  id_eq : a'.id = a.id
  node {i : Nat} {n : Node F} : a.nodes[i]? = some n → n.kind.tier = 0 →
    ∃ flag, a'.nodes[i]? = some { n with overwritten := flag }
  pattern {i : Nat} {p : Pattern × Nat} : a.patterns[i]? = some p → a'.patterns[i]? = some p

theorem Preserves.refl (a : Arena F) : a.Preserves a :=
  ⟨rfl, fun hn _ => ⟨_, hn⟩, fun hp => hp⟩

theorem Preserves.trans {a'' : Arena F} (h : a.Preserves a') (h' : a'.Preserves a'') :
    a.Preserves a'' := by
  refine ⟨h'.id_eq.trans h.id_eq, fun hn tier => ?_, fun hp => h'.pattern (h.pattern hp)⟩
  obtain ⟨_, hn⟩ := h.node hn tier
  obtain ⟨flag, hn⟩ := h'.node hn tier
  exact ⟨flag, hn⟩

theorem Keeps.preserves (h : a.Keeps P a') (low : ∀ i k, k.tier = 0 → P i k) : a.Preserves a' :=
  ⟨h.id_eq, fun hn tier => ⟨_, h.node hn (low _ _ tier)⟩, h.pattern⟩

theorem preserves_of_le (h : a ≤ a') : a.Preserves a' := h.preserves fun _ _ _ => trivial

theorem Fits.nil {kind : Kind} : a.Fits kind [] :=
  fun _ h => absurd h List.not_mem_nil

theorem Fits.cons {kind : Kind} {v : Value F} {args : List (Value F)} (h : a.Fits kind [v])
    (h' : a.Fits kind args) : a.Fits kind (v :: args) := by
  intro n hn
  rcases List.mem_cons.mp hn with eq | hn
  · exact h n (List.mem_singleton.mpr eq)
  · exact h' n hn

theorem checkValue_of_fits {kind : Kind} {args : List (Value F)} (h : a.Fits kind args)
    {v : Value F} (hv : v ∈ args) : a.checkValue v = .ok () := by
  cases v with
  | const x => rfl
  | node r =>
      obtain ⟨arena, n, hn, -⟩ := h r hv
      have lt := (Array.getElem?_eq_some_iff.mp hn).1
      simp [checkValue, check, owns, arena, size, lt]

theorem node_eq {r : NodeRef} {n : Node F} (arena : r.arena = a.id)
    (h : a.nodes[r.index]? = some n) : a.node r = .ok n := by
  rw [node, h]
  simp [arena]

theorem node_eq_ok_iff {a : Arena F} {r : NodeRef} {n : Node F} :
    a.node r = .ok n ↔ r.arena = a.id ∧ a.nodes[r.index]? = some n := by
  constructor
  · intro h
    rw [node] at h
    split at h
    case h_1 m hm =>
        split at h
        case isTrue arena =>
            cases h
            exact ⟨arena, hm⟩
        case isFalse => cases h
    case h_2 => cases h
  · rintro ⟨arena, hn⟩
    exact node_eq arena hn

/-- A handle with a node is that of its position. -/
theorem eq_handle {a : Arena F} {r : NodeRef} {n : Node F} (h : a.node r = .ok n) :
    r = a.handle r.index := by
  rw [handle, ← (node_eq_ok_iff.mp h).1]

theorem fits_node {kind : Kind} {r : NodeRef} {n : Node F} (h : a.node r = .ok n)
    (tier : n.kind.tier ≤ kind.tier) : a.Fits kind [.node r] := by
  intro s hs
  cases Value.node.inj (List.mem_singleton.mp hs)
  exact ⟨(node_eq_ok_iff.mp h).1, n, (node_eq_ok_iff.mp h).2, tier⟩

/-- Arguments that fit still fit in a later arena. -/
theorem Fits.keep {kind : Kind} {args : List (Value F)} (h : a.Fits kind args)
    (keeps : a.Keeps P a') : a'.Fits kind args := by
  intro r hr
  obtain ⟨arena, n, hn, tier⟩ := h r hr
  obtain ⟨n', hn', eq⟩ := keeps.kind hn
  exact ⟨arena.trans keeps.id_eq.symm, n', hn', eq ▸ tier⟩

/-- A node that is kept. -/
theorem Keeps.node_eq (h : a.Keeps P a') {r : NodeRef} {n : Node F} (hn : a.node r = .ok n)
    (kept : P r.index n.kind) : a'.node r = .ok n := by
  obtain ⟨arena, hn⟩ := node_eq_ok_iff.mp hn
  exact node_eq_ok_iff.mpr ⟨arena.trans h.id_eq.symm, h.node hn kept⟩

/-! ## Steps -/

/-- The arena with one more node. -/
def pushed (a : Arena F) (n : Node F) : Arena F := { a with nodes := a.nodes.push n }

theorem node_pushed_self (a : Arena F) (n : Node F) : (a.pushed n).nodes[a.size]? = some n := by
  simp [pushed, size]

theorem le_pushed {n : Node F} (h : a.Fits n.kind n.args) : a ≤ a.pushed n := by
  have keep {i : Nat} {n' : Node F} (hn : a.nodes[i]? = some n') :
      (a.pushed n).nodes[i]? = some n' := getElem?_push_of_some hn n
  refine ⟨rfl, fun hn _ => keep hn, fun hn => ⟨_, keep hn, rfl⟩, fun h => h,
    fun le _ tiered i m hm r hr => ?_⟩
  rcases getElem?_push_cases hm with hm | ⟨rfl, rfl⟩
  · obtain ⟨arena, k, hk, tier⟩ := tiered i m hm r hr
    exact ⟨arena, k, keep hk, tier⟩
  · obtain ⟨arena, k, hk, tier⟩ := h r hr
    exact ⟨arena, k, keep hk, .inr ⟨le, tier⟩⟩

/-- The arena with one more pattern. -/
def registered (a : Arena F) (p : Pattern) (n : Nat) : Arena F :=
  { a with patterns := a.patterns.push (p, n) }

theorem le_registered (a : Arena F) (p : Pattern) (n : Nat) : a ≤ a.registered p n := by
  exact ⟨rfl, fun h _ => h, fun h => ⟨_, h, rfl⟩, fun hq => getElem?_push_of_some hq _,
    fun _ _ h => h⟩

end Arena

/-! ## Programs over arenas -/

instance : Worlds (Recording F) (Arena F) where
  Ends c a Q := ∃ x a', c.run.run (some a) = (.ok x, some a') ∧ Q x a'
  ends_pure h := ⟨_, _, rfl, h⟩
  ends_bind := by
    rintro α β c f a P Q ⟨x, a', hc, hx⟩ h
    obtain ⟨y, a'', hf, hy⟩ := h x a' hx
    refine ⟨y, a'', ?_, hy⟩
    rw [ExceptT.run_bind, StateT.run_bind, hc]
    exact hf
  ends_forall := by
    intro ι _ α c a Q h
    obtain ⟨x, a', hc, -⟩ := h (Classical.arbitrary ι)
    refine ⟨x, a', hc, fun i => ?_⟩
    obtain ⟨y, a'', hc', hy⟩ := h i
    cases hc.symm.trans hc'
    exact hy

section

variable {α β : Type} {a : Arena F} {Q : β → Arena F → Prop}

namespace Recording

/-- What a recording does next depends on how the first part of it ended. -/
theorem run_bind_some {c : Recording F α} {f : α → Recording F β} {a a' : Arena F}
    {r : Except Failure α} (run : c.run.run (some a) = (r, some a')) :
    (c >>= f).run.run (some a) = match r with
      | .ok x => (f x).run.run (some a')
      | .error e => (.error e, some a') := by
  simp only [ExceptT.run_bind, StateT.run_bind, run]
  cases r <;> rfl

theorem ends_reporting {c : ArenaM F β} (h : Ends c a Q) : Ends (reporting c) a Q := by
  obtain ⟨x, a', hc, hx⟩ := h
  refine ⟨x, a', ?_, hx⟩
  change (c.run.run a).map id some = _
  rw [hc]
  rfl

theorem ends_operating {c : ArenaM F β} (h : Ends c a Q) : Ends (operating c) a Q := by
  obtain ⟨x, a', hc, hx⟩ := ends_reporting h
  refine ⟨x, a', ?_, hx⟩
  rw [operating, ExceptT.run_tryCatch, StateT.run_bind, hc]
  rfl

theorem ends_known {x : β} (h : Ends (pure x : ArenaM F β) a Q) :
    Ends (pure x : Recording F β) a Q := by
  obtain ⟨_, _, run, hx⟩ := h
  cases run
  exact ends_pure hx

section

variable [Scalar F] {Q : Value F → Arena F → Prop} {v w : Value F}

theorem ends_binary {op : OpCode} (h : Ends (Value.binary op v w) a Q) :
    Ends (binary op v w) a Q := by
  rw [binary.eq_def]
  split
  case h_1 => exact ends_known h
  case h_2 => exact ends_operating h

theorem ends_unary {op : OpCode} (h : Ends (Value.unary op v) a Q) : Ends (unary op v) a Q := by
  cases v with
  | const x => exact ends_known h
  | node r => exact ends_operating h

theorem ends_powi {n : Int32} (h : Ends (Value.powi v n) a Q) : Ends (powi v n) a Q := by
  cases v with
  | const x => exact ends_known h
  | node r => exact ends_operating h

theorem ends_compound {op : Compound} (h : Ends (Value.compound op v w) a Q) :
    Ends (compound op v w) a Q := by
  rw [compound.eq_def]
  split
  case h_1 => exact ends_known h
  case h_2 => exact ends_operating h

end

theorem ends_lift_bind {c : Except Failure α} {x : α} {f : α → Recording F β} (hc : c = .ok x)
    (h : Ends (f x) a Q) : Ends ((liftM c : Recording F α) >>= f) a Q := by
  subst hc
  exact Worlds.Ends.bind (P := fun y a' => y = x ∧ a' = a) ⟨x, a, rfl, rfl, rfl⟩ (by
    rintro _ _ ⟨rfl, rfl⟩
    exact h)

end Recording

end

/-! ## Recording nodes -/

/-- A search finds an element that passes the test, at or after its
start. -/
theorem exists_of_findFrom? {α : Type} {xs : Array α} {test : α → Bool} {i j : Nat}
    (h : findFrom? xs test i = some j) : i ≤ j ∧ ∃ x, xs[j]? = some x ∧ test x = true := by
  induction i using findFrom?.induct xs test with
  | case1 i lt found =>
      rw [findFrom?, dif_pos lt, if_pos found] at h
      cases h
      exact ⟨Nat.le_refl _, _, Array.getElem?_eq_getElem lt, found⟩
  | case2 i lt next ih =>
      rw [findFrom?, dif_pos lt, if_neg next] at h
      obtain ⟨le, x, hx⟩ := ih h
      exact ⟨Nat.le_of_succ_le le, x, hx⟩
  | case3 i past =>
      rw [findFrom?, dif_neg past] at h
      cases h

namespace Arena

variable {a : Arena F} {n : Node F} {kind : Kind} {args : List (Value F)} {info : List Nat}

/-- Arguments of a node come before the place where a search for the node
starts. -/
theorem lt_pastArgs {r : NodeRef} (h : .node r ∈ args) : r.index < pastArgs args := by
  have grows (l : List NodeRef) : ∀ k, k ≤ l.foldl (fun i r => max i (r.index + 1)) k := by
    induction l with
    | nil => exact fun k => le_rfl
    | cons s l ih => exact fun k => (Nat.le_max_left ..).trans (ih _)
  have passes (l : List NodeRef) (hr : r ∈ l) :
      ∀ k, r.index < l.foldl (fun i r => max i (r.index + 1)) k := by
    induction l with
    | nil => cases hr
    | cons s l ih =>
        intro k
        rcases List.mem_cons.mp hr with rfl | hr
        · exact Nat.lt_of_lt_of_le (show r.index < max k (r.index + 1) by omega) (grows l _)
        · exact ih hr _
  exact passes _ (List.mem_filterMap.mpr ⟨_, h, rfl⟩) 0

theorem ends_add : Ends (add n) a fun r a' => r = a.handle a.size ∧ a' = a.pushed n :=
  ⟨_, _, rfl, rfl, rfl⟩

/-- Values of the arena pass. -/
theorem checkValues_eq (own : ∀ v ∈ args, a.checkValue v = .ok ()) :
    (args.forM fun v => (liftM (a.checkValue v) : ArenaM F Unit)) = pure () := by
  induction args with
  | nil => rfl
  | cons v args ih =>
      rw [List.forM, own v (List.mem_cons_self ..),
        ih fun v hv => own v (List.mem_cons_of_mem _ hv)]
      rfl

theorem ends_checkValues {β : Type} {f : Unit → ArenaM F β} {Q : β → Arena F → Prop}
    (fits : a.Fits kind args) (h : Ends (f ()) a Q) :
    Ends ((args.forM fun v => (liftM (a.checkValue v) : ArenaM F Unit)) >>= f) a Q := by
  rwa [checkValues_eq fun _ hv => checkValue_of_fits fits hv, pure_bind]

variable [Scalar F]

/-- A node other than an elementary operation is recorded anew. -/
theorem ends_push_new (structural : ∀ code, kind ≠ .op code) (fits : a.Fits kind args) :
    Ends (push kind args info) a fun r a' =>
      r = a.handle a.size ∧ a' = a.pushed ⟨kind, args, info, false⟩ := by
  refine ends_get_bind (ends_checkValues fits ?_)
  cases kind with
  | op code => exact absurd rfl (structural code)
  | _ => exact ends_add

/-- A node other than an elementary operation is recorded at the end. -/
theorem yields_push_new (structural : ∀ code, kind ≠ .op code) (fits : a.Fits kind args) :
    Yields (Recording.push kind args info) a fun r a' =>
      r.index = a.size ∧ a'.node r = .ok ⟨kind, args, info, false⟩ ∧
        a' = a.pushed ⟨kind, args, info, false⟩ := by
  refine Recording.ends_reporting ((ends_push_new structural fits).mono ?_)
  rintro _ _ ⟨rfl, rfl⟩
  exact ⟨le_pushed fits, rfl, node_eq rfl (node_pushed_self a _), rfl⟩

/-- Arguments that can stand for each other. -/
def Alike (v w : Value F) : Prop := v = w ∨ v.same w = true

theorem alike_of_sameAll {vs ws : List (Value F)} (h : Value.sameAll vs ws = true) :
    List.Forall₂ Alike vs ws := by
  induction vs generalizing ws with
  | nil =>
      cases ws with
      | nil => exact .nil
      | cons w ws => cases h
  | cons v vs ih =>
      cases ws with
      | nil => cases h
      | cons w ws =>
          obtain ⟨same, rest⟩ := (Bool.and_eq_true _ _).mp h
          exact .cons (.inr same) (ih rest)

/-- A node that records an operation on the given arguments, or on
arguments that can stand for them. -/
def Records (a : Arena F) (r : NodeRef) (kind : Kind) (args : List (Value F)) (info : List Nat) :
    Prop :=
  r.arena = a.id ∧ ∃ n, a.nodes[r.index]? = some n ∧ n.kind = kind ∧ n.info = info ∧
    List.Forall₂ Alike n.args args ∧ ∀ s, .node s ∈ n.args → s.index < r.index

theorem node_mem_of_alike {vs ws : List (Value F)} (h : List.Forall₂ Alike vs ws) {s : NodeRef}
    (hs : .node s ∈ vs) : .node s ∈ ws := by
  induction h with
  | nil => exact hs
  | @cons v w _ _ alike _ ih =>
      rcases List.mem_cons.mp hs with eq | hs
      · rcases alike with rfl | same
        · exact List.mem_cons.mpr (.inl eq)
        · subst eq
          cases w with
          | const x => cases same
          | node t => exact List.mem_cons.mpr (.inl (congrArg Value.node (eq_of_beq same)))
      · exact List.mem_cons_of_mem _ (ih hs)

/-- An elementary operation is recorded, or found where it was recorded
before. -/
theorem yields_push_op {code : OpCode} (fits : a.Fits (.op code) args) :
    Yields (push (.op code) args info) a fun r a' => a'.Records r (.op code) args info := by
  refine ends_get_bind (ends_checkValues fits ?_)
  cases found : a.find? (.op code) args info with
  | some i =>
      obtain ⟨le, n, hn, records⟩ := exists_of_findFrom? found
      simp only [Node.records, Bool.and_eq_true, beq_iff_eq] at records
      have alike := alike_of_sameAll records.1.1
      exact ends_pure ⟨le_rfl, rfl, n, hn, records.2, records.1.2, alike, fun s hs =>
        Nat.lt_of_lt_of_le (lt_pastArgs (node_mem_of_alike alike hs)) le⟩
  | none =>
      refine ends_add.mono fun r a' ⟨hr, ha⟩ => ?_
      subst hr ha
      refine ⟨le_pushed fits, rfl, _, node_pushed_self a _, rfl, rfl,
        List.forall₂_same.mpr fun _ _ => .inl rfl, fun s hs => ?_⟩
      obtain ⟨-, m, hm, -⟩ := fits s hs
      exact (Array.getElem?_eq_some_iff.mp hm).1

end Arena

/-! ## Patterns -/

namespace Arena

variable {a : Arena F}

/-- A pattern that is registered under a number, or has one that agrees
with it registered there. -/
def Registered (a : Arena F) (i n : Nat) (p : Pattern) : Prop :=
  ∃ q, a.patterns[i]? = some (q, n) ∧ ∀ it < n, q.eval it = p.eval it

theorem run_addPattern (p : Pattern) (n : Nat) (a : Arena F) :
    (addPattern p n).run.run a = match a.findPattern? p n with
      | some i => (.ok i, a)
      | none => (.ok a.patterns.size, a.registered p n) := by
  change (match (match a.findPattern? p n with
    | some i => (i, a)
    | none => (a.patterns.size, a.registered p n)) with
    | (i, a') => (Except.ok i, a')) = _
  cases a.findPattern? p n <;> rfl

/-- What is found is registered, or has a pattern that agrees with it. -/
theorem registered_of_findPattern? {p : Pattern} {n i : Nat} (h : a.findPattern? p n = some i) :
    a.Registered i n p := by
  obtain ⟨lt, test, -⟩ := Array.findIdx?_eq_some_iff_getElem.mp h
  simp only [Bool.and_eq_true, beq_iff_eq] at test
  refine ⟨a.patterns[i].1, ?_, Pattern.equivalent_iff.mp test.2⟩
  rw [Array.getElem?_eq_getElem lt, ← test.1]

theorem registered_self (a : Arena F) (p : Pattern) (n : Nat) :
    (a.registered p n).Registered a.patterns.size n p :=
  ⟨p, by simp [registered], fun _ _ => rfl⟩

theorem yields_addPattern (p : Pattern) (n : Nat) :
    Yields (addPattern p n) a fun i a' => a'.Registered i n p ∧ a'.nodes = a.nodes := by
  have run := run_addPattern p n a
  cases found : a.findPattern? p n with
  | some i =>
      rw [found] at run
      exact ⟨i, a, run, le_rfl, registered_of_findPattern? found, rfl⟩
  | none =>
      rw [found] at run
      exact ⟨_, _, run, le_registered a p n, registered_self a p n, rfl⟩

/-! ## Adding arguments -/

/-- The arena with one more argument for a node. -/
def appended (a : Arena F) (target : NodeRef) (arg : Value F) : Arena F :=
  { a with nodes := a.nodes.modify target.index fun n => { n with args := n.args ++ [arg] } }

theorem node_appended_self {target : NodeRef} {n : Node F} {arg : Value F}
    (h : a.node target = .ok n) :
    (a.appended target arg).node target = .ok { n with args := n.args ++ [arg] } := by
  obtain ⟨arena, hn⟩ := node_eq_ok_iff.mp h
  refine node_eq_ok_iff.mpr ⟨arena, ?_⟩
  rw [appended, Array.getElem?_modify, if_pos rfl, hn]
  rfl

/-- All other nodes are kept. -/
theorem keeps_appended {target : NodeRef} {n : Node F} {arg : Value F} (h : a.node target = .ok n)
    (appendable : n.kind.isAppendable = true) (fits : a.Fits n.kind [arg]) :
    a.Keeps (fun i _ => i ≠ target.index) (a.appended target arg) := by
  have other {i : Nat} (ne : i ≠ target.index) : (a.appended target arg).nodes[i]? = a.nodes[i]? := by
    rw [appended, Array.getElem?_modify, if_neg (Ne.symm ne)]
  have same {i : Nat} {m : Node F} (hm : a.nodes[i]? = some m) :
      ∃ m', (a.appended target arg).nodes[i]? = some m' ∧ m'.kind = m.kind := by
    by_cases eq : i = target.index
    · refine ⟨{ m with args := m.args ++ [arg] }, ?_, rfl⟩
      rw [appended, Array.getElem?_modify, if_pos eq.symm, hm]
      rfl
    · exact ⟨m, (other eq).trans hm, rfl⟩
  refine ⟨rfl, fun hm ne => (other ne).trans hm, same, fun h => h,
    fun {base} _ kept tiered i m' hm' r hr => ?_⟩
  have later {m : Node F} {k : Nat} (h : a.nodes[r.index]? = some m)
      (tier : r.index < base ∨ base ≤ i ∧ m.kind.tier ≤ k) :
      ∃ m', (a.appended target arg).nodes[r.index]? = some m' ∧
        (r.index < base ∨ base ≤ i ∧ m'.kind.tier ≤ k) := by
    obtain ⟨m', hm', eq⟩ := same h
    exact ⟨m', hm', eq ▸ tier⟩
  obtain ⟨-, hn⟩ := node_eq_ok_iff.mp h
  by_cases eq : i = target.index
  · subst eq
    rw [(node_eq_ok_iff.mp (node_appended_self h)).2] at hm'
    cases hm'
    rcases List.mem_append.mp hr with hr | hr
    · obtain ⟨arena, m, hm, tier⟩ := tiered _ n hn r hr
      exact ⟨arena, later hm tier⟩
    · -- the node is not one of those that come before
      have ge : base ≤ target.index := by
        by_contra lt
        exact kept _ n hn (Nat.lt_of_not_le lt) appendable rfl
      obtain ⟨arena, m, hm, tier⟩ := fits r hr
      exact ⟨arena, later hm (.inr ⟨ge, tier⟩)⟩
  · obtain ⟨arena, m, hm, tier⟩ := tiered i m' ((other eq).symm.trans hm') r hr
    exact ⟨arena, later hm tier⟩

/-- A node gets an argument that does not lead back to it. -/
theorem ends_append {target r : NodeRef} {n : Node F} (h : a.node target = .ok n)
    (appendable : n.kind.isAppendable = true) (fits : a.Fits n.kind [.node r])
    (acyclic : a.reaches r target = .ok false) :
    Ends (append target [.node r]) a fun _ a' => a' = a.appended target (.node r) := by
  refine ends_get_bind (ends_lift_bind h ?_)
  simp only [appendable, Bool.not_true, Bool.false_eq_true, if_false]
  refine ends_checkValues fits ?_
  refine ⟨(), a.appended target (.node r), ?_, rfl⟩
  rw [List.forM]
  simp only [acyclic]
  rfl

/-! ## Inputs -/

/-- The node that reads an input. -/
def IsInput (a : Arena F) (v : Value F) (array position : Nat) : Prop :=
  ∃ r, v = .node r ∧ r.arena = a.id ∧
    a.nodes[r.index]? = some ⟨.independent, [], [array, position], false⟩

theorem IsInput.extend {a' : Arena F} {v : Value F} {array position : Nat}
    (h : a.IsInput v array position) (le : a ≤ a') : a'.IsInput v array position := by
  obtain ⟨r, hv, arena, hr⟩ := h
  exact ⟨r, hv, arena.trans (Keeps.id_eq le).symm, node_of_le le hr⟩

theorem yields_newIndependents {array n : Nat} (small : 24 * n < 0x8000000000000000) :
    Yields (newIndependents array n) a fun vs a' => vs.length = n ∧
      ∀ i v, vs[i]? = some v → a'.IsInput v array i := by
  refine yields_checkExtent_bind small ?_
  refine (yields_mapM (P := fun i v a' => a'.IsInput v array i)
    (fun _ _ _ _ le h => h.extend le) fun i _ a' _ => ?_).mono fun vs a' _ h => ?_
  · refine Worlds.Ends.bind ends_add fun r a'' ⟨hr, ha⟩ => ?_
    subst hr ha
    exact ends_pure ⟨le_pushed fun _ h => absurd h List.not_mem_nil, _, rfl, rfl,
      node_pushed_self a' _⟩
  · refine ⟨by simpa using h.length_eq.symm, fun i v hv => ?_⟩
    obtain ⟨j, hj, hv'⟩ := exists_left_of_forall₂ h hv
    have eq : i = j := by
      obtain ⟨lt, rfl⟩ := List.getElem?_eq_some_iff.mp hj
      rw [List.getElem_range]
    exact eq ▸ hv'

end Arena

end LoopDiff
