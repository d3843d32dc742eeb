import LoopDiff.Assembly.Hessian
import LoopDiff.Proofs.Loop.Uses
import LoopDiff.Proofs.Model.Dependency

/-!
# LoopDiff.Proofs.Assembly.Streams

The streams of a Hessian and their uses.

A pair of tape inputs that meets is used for every pair of independents that
the two inputs stand for, at every iteration
(`LoopStructure.pairUses`).  A stream with its iteration gives the two
independents back, up to their order, and only elements on one side of the
diagonal are computed; so a stream is used for one location at an iteration
(`LoopStructure.oneLocation_pairs`) and its claims never conflict.
-/

namespace LoopDiff

open Std (TreeMap TreeSet)

/-! ## Claims -/

namespace HessianStreams

/-- The streams have been claimed by some uses. -/
structure Claimed (s : HessianStreams) (P : List (Use PairStream)) (S : List (Use SecondStream)) :
    Prop where
  pairs : Collected P s.pairs
  seconds : Collected S s.seconds
  touched (k : Nat) : k ∈ s.touched ↔ (∃ u ∈ P, u.location = k) ∨ ∃ u ∈ S, u.location = k

variable {s : HessianStreams} {P : List (Use PairStream)} {S : List (Use SecondStream)}
  {n it location : Nat} {pair : Nat × Nat}

theorem claimed_empty : empty.Claimed [] [] :=
  ⟨.empty, .empty, fun k => by simp [empty]⟩

theorem Claimed.yields_claimPair (h : s.Claimed P S) {stream : PairStream}
    (one : OneLocation (P ++ [⟨stream, it, location⟩])) :
    Yields (s.claimPair stream it location pair) () fun s' _ =>
      s'.Claimed (P ++ [⟨stream, it, location⟩]) S := by
  have free (u) (hu : u ∈ P) (eq : u.stream = stream) (eq' : u.iteration = it) :
      u.location = location :=
    one u (List.mem_append_left _ hu) ⟨stream, it, location⟩
      (List.mem_append_right _ (List.mem_singleton_self _)) eq eq'
  refine Yields.bind (h.pairs.yields_add free) fun claims _ _ pairs => ?_
  refine yields_pure ⟨pairs, h.seconds, fun k => ?_⟩
  rw [TreeSet.mem_insert, Std.compare_eq_iff_eq, h.touched]
  simp [or_and_right, exists_or, or_assoc, or_comm (a := location = k)]

theorem Claimed.yields_claimPairAlways (h : s.Claimed P S) {stream : PairStream} (pos : 0 < n)
    (inside : ∀ u ∈ P, u.iteration < n)
    (one : OneLocation (P ++ (List.range n).map fun it => ⟨stream, it, location⟩)) :
    Yields (s.claimPairAlways stream n location pair) () fun s' _ =>
      s'.Claimed (P ++ (List.range n).map fun it => ⟨stream, it, location⟩) S := by
  have free (u) (hu : u ∈ P) (eq : u.stream = stream) : u.location = location :=
    one u (List.mem_append_left _ hu) ⟨stream, u.iteration, location⟩
      (List.mem_append_right _ (List.mem_map_of_mem (List.mem_range.mpr (inside u hu)))) eq rfl
  refine Yields.bind (h.pairs.yields_addAll pos free) fun claims _ _ pairs => ?_
  refine yields_pure ⟨pairs, h.seconds, fun k => ?_⟩
  have some : ∃ it, it < n := ⟨0, pos⟩
  rw [TreeSet.mem_insert, Std.compare_eq_iff_eq, h.touched]
  simp [or_and_right, exists_or, some, or_assoc, or_comm (a := location = k)]

theorem Claimed.yields_claimSecond (h : s.Claimed P S) {stream : SecondStream} (pos : 0 < n)
    (free : ∀ u ∈ S, u.stream = stream → u.location = location) :
    Yields (s.claimSecond stream n location) () fun s' _ =>
      s'.Claimed P (S ++ (List.range n).map fun it => ⟨stream, it, location⟩) := by
  refine Yields.bind (h.seconds.yields_addAll pos free) fun claims _ _ seconds => ?_
  refine yields_pure ⟨h.pairs, seconds, fun k => ?_⟩
  have some : ∃ it, it < n := ⟨0, pos⟩
  rw [TreeSet.mem_insert, Std.compare_eq_iff_eq, h.touched]
  simp [or_and_right, exists_or, some, or_comm, or_left_comm]

end HessianStreams

namespace LoopStructure

open HessianStreams

variable {F : Type} {l : LoopStructure F} {layout : Layout} {p q it location j j' : Nat}
  {chain : Option Nat} {stream : PairStream}

/-! ## Uses -/

/-- A use of a stream for a location at an iteration. -/
def use (e : PairStream × Nat) (it : Nat) : Use PairStream := ⟨e.1, it, e.2⟩

/-- The uses that a pair of inputs makes at an iteration. -/
def usesAt (l : LoopStructure F) (layout : Layout) (p q it : Nat) : List (Use PairStream) :=
  (l.streamsAt layout p q it).map (use · it)

/-- The uses that a pair of inputs makes. -/
def pairUses (l : LoopStructure F) (layout : Layout) (e : Nat × Nat) : List (Use PairStream) :=
  if l.contributes e.1 e.2 then
    (List.range l.loop.iterations).flatMap (l.usesAt layout e.1 e.2)
  else []

/-- The uses that the second derivatives of a temporary make. -/
def secondUses (l : LoopStructure F) (layout : Layout) (e : Nat × PairSet) :
    List (Use SecondStream) :=
  e.2.toList.flatMap fun (row, col) =>
    (layout.computed[(row, col)]?).elim [] fun location =>
      (List.range l.loop.iterations).map fun it => ⟨⟨e.1, row, col⟩, it, location⟩

/-- The chain and the iteration tell which independent is meant. -/
theorem behind_unique (h : (j, chain) ∈ l.behind q it) (h' : (j', chain) ∈ l.behind q it) :
    j = j' := by
  rw [behind] at h h'
  cases hd : l.dependencies[q]? with
  | some independents =>
      simp only [hd, List.mem_map, Prod.mk.injEq] at h h'
      obtain ⟨_, -, rfl, rfl⟩ := h
      obtain ⟨_, -, rfl, eq⟩ := h'
      exact (Option.some.inj eq).symm
  | none =>
      simp only [hd, List.mem_map, Prod.mk.injEq, Option.mem_toList] at h h'
      obtain ⟨_, h, rfl, -⟩ := h
      obtain ⟨_, h', rfl, -⟩ := h'
      exact Option.some.inj (h.symm.trans h')

/-- An input that is not indexed reads the same independent at every iteration. -/
theorem independentAt?_eq {loop : Loop F} (notIndexed : loop.isIndexed q = false) (it : Nat) :
    loop.independentAt? q it = loop.independentAt? q 0 := by
  have beyond : loop.indexed[q]? = none := by
    rw [List.getElem?_eq_none_iff]
    simpa [Loop.isIndexed] using notIndexed
  rw [Loop.independentAt?, Loop.independentAt?, beyond]

/-- It stands for the same independents then. -/
theorem behind_eq (notIndexed : l.loop.isIndexed q = false) (it : Nat) :
    l.behind q it = l.behind q 0 := by
  rw [behind, behind, independentAt?_eq notIndexed]

theorem mem_streamsAt : (stream, location) ∈ l.streamsAt layout p q it ↔
    ∃ row chainP col chainQ, (row, chainP) ∈ l.behind p it ∧ (col, chainQ) ∈ l.behind q it ∧
      layout.computed[(row, col)]? = some location ∧ .ofInputs p q chainP chainQ = stream := by
  rw [streamsAt, List.mem_flatMap]
  constructor
  · rintro ⟨⟨row, chainP⟩, hp, h⟩
    obtain ⟨⟨col, chainQ⟩, hq, h⟩ := List.mem_filterMap.mp h
    obtain ⟨_, computed, eq⟩ := Option.map_eq_some_iff.mp h
    cases eq
    exact ⟨row, chainP, col, chainQ, hp, hq, computed, rfl⟩
  · rintro ⟨row, chainP, col, chainQ, hp, hq, computed, rfl⟩
    exact ⟨(row, chainP), hp, List.mem_filterMap.mpr
      ⟨(col, chainQ), hq, Option.map_eq_some_iff.mpr ⟨location, computed, rfl⟩⟩⟩

theorem ofInputs_inj {p' q' : Nat} {chainP chainQ chainP' chainQ' : Option Nat}
    (h : PairStream.ofInputs p q chainP chainQ = .ofInputs p' q' chainP' chainQ') :
    (p = p' ∧ q = q' ∧ chainP = chainP' ∧ chainQ = chainQ') ∨
      p = q' ∧ q = p' ∧ chainP = chainQ' ∧ chainQ = chainP' := by
  rw [PairStream.ofInputs, PairStream.ofInputs] at h
  split at h <;> split at h <;> simp only [PairStream.mk.injEq] at h <;> tauto

theorem mem_pairUses {e : Nat × Nat} {u : Use PairStream} : u ∈ l.pairUses layout e ↔
    l.contributes e.1 e.2 ∧ u.iteration < l.loop.iterations ∧
      (u.stream, u.location) ∈ l.streamsAt layout e.1 e.2 u.iteration := by
  rw [pairUses]
  split
  case isTrue contributes =>
      simp only [contributes, true_and, List.mem_flatMap, List.mem_range, usesAt, List.mem_map]
      constructor
      · rintro ⟨it, hit, ⟨stream, location⟩, mem, rfl⟩
        exact ⟨hit, mem⟩
      · rintro ⟨hit, mem⟩
        exact ⟨u.iteration, hit, _, mem, rfl⟩
  case isFalse => simp [*]

theorem mem_secondUses {e : Nat × PairSet} {u : Use SecondStream} : u ∈ l.secondUses layout e ↔
    u.stream.input = e.1 ∧ (u.stream.row, u.stream.col) ∈ e.2 ∧ u.iteration < l.loop.iterations ∧
      layout.computed[(u.stream.row, u.stream.col)]? = some u.location := by
  rw [secondUses, List.mem_flatMap]
  constructor
  · rintro ⟨⟨row, col⟩, mem, h⟩
    cases hc : layout.computed[(row, col)]? with
    | none => simp [hc] at h
    | some location =>
        simp only [hc, Option.elim_some, List.mem_map, List.mem_range] at h
        obtain ⟨it, hit, rfl⟩ := h
        exact ⟨rfl, TreeSet.mem_toList.mp mem, hit, hc⟩
  · obtain ⟨⟨input, row, col⟩, it, location⟩ := u
    rintro ⟨rfl, mem, hit, hc⟩
    refine ⟨(row, col), TreeSet.mem_toList.mpr mem, ?_⟩
    simp only [hc, Option.elim_some, List.mem_map, List.mem_range]
    exact ⟨it, hit, rfl⟩

/-! ## One location for each use -/

/-- A pair stream is used for one location at an iteration, if elements are
computed on one side of the diagonal only. -/
theorem oneLocation_pairs {es : List (Nat × Nat)}
    (lower : ∀ (e : Nat × Nat) (k : Nat), layout.computed[e]? = some k → e.2 ≤ e.1) :
    OneLocation (es.flatMap (l.pairUses layout)) := by
  rintro ⟨stream, it, location⟩ hu ⟨_, _, location'⟩ hu' rfl rfl
  obtain ⟨⟨p, q⟩, -, hu⟩ := List.mem_flatMap.mp hu
  obtain ⟨⟨p', q'⟩, -, hu'⟩ := List.mem_flatMap.mp hu'
  obtain ⟨row, chainP, col, chainQ, hp, hq, computed, eq⟩ :=
    mem_streamsAt.mp (mem_pairUses.mp hu).2.2
  obtain ⟨row', chainP', col', chainQ', hp', hq', computed', eq'⟩ :=
    mem_streamsAt.mp (mem_pairUses.mp hu').2.2
  rcases ofInputs_inj (eq.trans eq'.symm) with ⟨rfl, rfl, rfl, rfl⟩ | ⟨rfl, rfl, rfl, rfl⟩
  · cases behind_unique hp hp'
    cases behind_unique hq hq'
    exact Option.some.inj (computed.symm.trans computed')
  · cases behind_unique hp hq'
    cases behind_unique hq hp'
    -- both an element and its transpose are computed, so it is on the diagonal
    obtain rfl : row = col := Nat.le_antisymm (lower _ _ computed') (lower _ _ computed)
    exact Option.some.inj (computed.symm.trans computed')

/-! ## Claims of a loop -/

section

variable {s : HessianStreams} {P : List (Use PairStream)} {S : List (Use SecondStream)}

/-- An input pair claims its streams at one iteration. -/
theorem yields_claimAt (h : s.Claimed P S) {es : List (PairStream × Nat)} {pair : Nat × Nat}
    (one : OneLocation (P ++ es.map (use · it))) :
    Yields (es.foldlM (fun s (stream, location) => s.claimPair stream it location pair) s) ()
      fun s' _ => s'.Claimed (P ++ es.map (use · it)) S := by
  refine Yields.mono (yields_foldlM (fun done (s' : HessianStreams) _ =>
    s'.Claimed (P ++ done.map (use · it)) S) ?_ ?_)
    fun _ _ _ h => h
  · rwa [List.map_nil, List.append_nil]
  · rintro done ⟨stream, location⟩ rest s' _ split - h
    rw [List.map_append, ← List.append_assoc]
    refine h.yields_claimPair (one.mono (List.IsPrefix.subset ⟨rest.map (use · it), ?_⟩))
    simp [split, use]

/-- An input pair claims its streams at all iterations alike. -/
theorem yields_claimAlways (h : s.Claimed P S) {n : Nat} (pos : 0 < n)
    (inside : ∀ u ∈ P, u.iteration < n) {es : List (PairStream × Nat)} {pair : Nat × Nat}
    (one : OneLocation (P ++ es.flatMap fun e => (List.range n).map (use e))) :
    Yields (es.foldlM (fun s (stream, location) => s.claimPairAlways stream n location pair) s) ()
      fun s' _ => s'.Claimed (P ++ es.flatMap fun e => (List.range n).map (use e)) S := by
  refine Yields.mono (yields_foldlM (fun done (s' : HessianStreams) _ =>
    s'.Claimed (P ++ done.flatMap fun e => (List.range n).map (use e)) S) ?_ ?_) fun _ _ _ h => h
  · rwa [List.flatMap_nil, List.append_nil]
  · rintro done ⟨stream, location⟩ rest s' _ split - h
    rw [List.flatMap_append, ← List.append_assoc, List.flatMap_singleton]
    refine h.yields_claimPairAlways pos ?_ (one.mono (List.IsPrefix.subset
      ⟨rest.flatMap fun e => (List.range n).map (use e), ?_⟩))
    · intro u hu
      rcases List.mem_append.mp hu with hu | hu
      · exact inside u hu
      · obtain ⟨e, -, hu⟩ := List.mem_flatMap.mp hu
        obtain ⟨it, hit, rfl⟩ := List.mem_map.mp hu
        exact List.mem_range.mp hit
    · simp [split, use]

/-- Uses at all iterations alike, one iteration after the other. -/
theorem perm_usesAt (es : List (PairStream × Nat)) (n : Nat) :
    (es.flatMap fun e => (List.range n).map (use e)).Perm
      ((List.range n).flatMap fun it => es.map (use · it)) := by
  refine Multiset.coe_eq_coe.mp ?_
  rw [← Multiset.coe_bind, ← Multiset.coe_bind]
  exact Multiset.bind_map_comm (es : Multiset (PairStream × Nat)) (List.range n : Multiset Nat)

theorem yields_claimPair (h : s.Claimed P S) (pos : 0 < l.loop.iterations)
    (inside : ∀ u ∈ P, u.iteration < l.loop.iterations)
    (one : OneLocation (P ++ l.pairUses layout (p, q))) :
    Yields (l.claimPair layout s p q) () fun s' _ =>
      s'.Claimed (P ++ l.pairUses layout (p, q)) S := by
  rw [claimPair]
  rw [pairUses] at one ⊢
  by_cases contributes : l.contributes p q = true
  · rw [if_pos contributes] at one ⊢
    rw [if_neg (by simpa using contributes)]
    split
    case isTrue indexed =>
        refine Yields.mono (yields_foldlM (fun done (s' : HessianStreams) _ =>
          s'.Claimed (P ++ done.flatMap (l.usesAt layout p q)) S) ?_ ?_) fun _ _ _ h => h
        · rwa [List.flatMap_nil, List.append_nil]
        · rintro done it rest s' _ split - h
          rw [List.flatMap_append, ← List.append_assoc, List.flatMap_singleton]
          refine yields_claimAt h (one.mono (List.IsPrefix.subset
            ⟨rest.flatMap (l.usesAt layout p q), ?_⟩))
          simp [split, usesAt]
    case isFalse fixed =>
        simp only [Bool.or_eq_true, not_or, Bool.not_eq_true] at fixed
        have same (it : Nat) : l.usesAt layout p q it = (l.streamsAt layout p q 0).map
            (use · it) := by
          rw [usesAt, streamsAt, behind_eq fixed.1, behind_eq fixed.2]
          rfl
        have perm := perm_usesAt (l.streamsAt layout p q 0) l.loop.iterations
        rw [List.flatMap_congr fun it _ => same it] at one ⊢
        refine (yields_claimAlways h pos inside (one.mono ?_)).mono fun s' _ _ h' => ?_
        · exact (perm.append_left P).subset
        · exact ⟨h'.pairs.perm (perm.append_left P), h'.seconds, fun k => by
            simp only [h'.touched, (perm.append_left P).mem_iff]⟩
  · rw [if_neg contributes, List.append_nil, if_pos (by simpa using contributes)]
    exact yields_pure h

/-- The uses of second derivatives are for the elements of their streams. -/
def Placed (layout : Layout) (S : List (Use SecondStream)) : Prop :=
  ∀ u ∈ S, layout.computed[(u.stream.row, u.stream.col)]? = some u.location

theorem placed_secondUses (es : List (Nat × PairSet)) :
    Placed layout (es.flatMap (l.secondUses layout)) := by
  intro u hu
  obtain ⟨e, -, hu⟩ := List.mem_flatMap.mp hu
  exact (mem_secondUses.mp hu).2.2.2

theorem yields_claimCurved (h : s.Claimed P S) (pos : 0 < l.loop.iterations)
    (placed : Placed layout S) {input : Nat} {pattern : PairSet} :
    Yields (l.claimCurved layout s input pattern) () fun s' _ =>
      s'.Claimed P (S ++ l.secondUses layout (input, pattern)) := by
  rw [claimCurved]
  let uses (e : Nat × Nat) : List (Use SecondStream) := (layout.computed[e]?).elim [] fun location =>
    (List.range l.loop.iterations).map fun it => ⟨⟨input, e.1, e.2⟩, it, location⟩
  refine Yields.mono (yields_foldlM (fun done (s' : HessianStreams) _ =>
    s'.Claimed P (S ++ done.flatMap uses) ∧ Placed layout (S ++ done.flatMap uses)) ?_ ?_)
    fun _ _ _ h => h.1
  · rw [List.flatMap_nil, List.append_nil]
    exact ⟨h, placed⟩
  · rintro done ⟨row, col⟩ rest s' _ - - ⟨h, placed⟩
    rw [List.flatMap_append, ← List.append_assoc, List.flatMap_singleton]
    simp only
    cases hc : layout.computed[(row, col)]? with
    | none =>
        have unused : uses (row, col) = [] := by simp only [uses, hc, Option.elim_none]
        rw [unused, List.append_nil]
        exact yields_pure ⟨h, placed⟩
    | some location =>
        have used : uses (row, col) = (List.range l.loop.iterations).map fun it =>
            ⟨⟨input, row, col⟩, it, location⟩ := by
          simp only [uses, hc, Option.elim_some]
        rw [used]
        refine (h.yields_claimSecond pos fun u hu eq => ?_).mono fun s'' _ _ h' => ⟨h', ?_⟩
        · have at_ := placed u hu
          rw [eq, hc] at at_
          exact (Option.some.inj at_).symm
        · intro u hu
          rcases List.mem_append.mp hu with hu | hu
          · exact placed u hu
          · obtain ⟨it, -, rfl⟩ := List.mem_map.mp hu
            exact hc

/-- The claims of all computed elements never conflict. -/
theorem yields_streams (pos : 0 < l.loop.iterations)
    (lower : ∀ (e : Nat × Nat) (k : Nat), layout.computed[e]? = some k → e.2 ≤ e.1) :
    Yields (l.streams layout) () fun s _ => s.Claimed
      (l.sparsity.toList.flatMap (l.pairUses layout)) (l.curved.flatMap (l.secondUses layout)) := by
  have one : OneLocation (l.sparsity.toList.flatMap (l.pairUses layout)) := oneLocation_pairs lower
  rw [streams]
  refine Yields.bind (P := fun s _ => s.Claimed (l.sparsity.toList.flatMap (l.pairUses layout)) [])
    (yields_foldlM (fun done (s : HessianStreams) _ =>
      s.Claimed (done.flatMap (l.pairUses layout)) []) claimed_empty ?_) fun s _ _ h => ?_
  · rintro done ⟨p, q⟩ rest s _ split - h
    rw [List.flatMap_append, List.flatMap_singleton]
    refine yields_claimPair h pos (fun u hu => ?_) (one.mono ?_)
    · obtain ⟨e, -, hu⟩ := List.mem_flatMap.mp hu
      exact (mem_pairUses.mp hu).2.1
    · exact List.IsPrefix.subset ⟨rest.flatMap (l.pairUses layout), by simp [split]⟩
  · refine yields_foldlM (fun done (s : HessianStreams) _ =>
      s.Claimed (l.sparsity.toList.flatMap (l.pairUses layout))
        (done.flatMap (l.secondUses layout))) h ?_
    rintro done ⟨input, pattern⟩ rest s _ - - h
    rw [List.flatMap_append, List.flatMap_singleton]
    exact yields_claimCurved h pos (placed_secondUses done)

end

/-! ## What the claims are read off -/

/-- The structure of a loop of a model, with derivatives of the temporaries
in rows. -/
structure IsOf (s : LoopStructure F) (m : Model F) (l : Loop F)
    (rows : List (TreeMap Nat (Value F))) : Prop where
  loop : s.loop = l
  sparsity (p q : Nat) : (p, q) ∈ s.sparsity ↔ l.tape.Meet l.tape.outputs p q
  dependencies (q : Nat) : s.dependencies[q]? =
    (l.temporaryOf? q).map fun k => TreeSet.ofList (rows.getD k ∅).keys
  curved {q : Nat} {pattern : PairSet} : (q, pattern) ∈ s.curved → ∃ o k,
    m.outer? = some o ∧ l.temporaryOf? q = some k ∧
      ∀ i j, (i, j) ∈ pattern ↔ o.tape.Meet [o.tape.outputAt (o.temporaryOutput k)] i j
  used {q : Nat} {pattern : PairSet} : (q, pattern) ∈ s.curved →
    ∃ out ∈ l.tape.outputs, l.tape.DependsOn out q
  listed {o : Outer F} {q k : Nat} : m.outer? = some o → l.temporaryOf? q = some k →
    (∃ out ∈ l.tape.outputs, l.tape.DependsOn out q) → ∃ pattern, (q, pattern) ∈ s.curved

section

variable {m : Model F} {l : Loop F} {s : LoopStructure F} {rows : List (TreeMap Nat (Value F))}

/-- There is a chain behind a temporary and only there. -/
theorem IsOf.of_mem_behind (h : s.IsOf m l rows) (mem : (j, chain) ∈ s.behind q it) :
    ∀ j', chain = some j' → ∃ k, l.temporaryOf? q = some k := by
  rintro j' rfl
  rw [behind, h.dependencies] at mem
  cases ht : l.temporaryOf? q with
  | some k => exact ⟨k, rfl⟩
  | none => simp [ht] at mem

/-- A side of a pair stream is an input of the tape, and has a chain only
behind a temporary. -/
def Side (l : Loop F) (input : Nat) (chain : Option Nat) : Prop :=
  input < l.tape.inputCount ∧ ∀ j, chain = some j → ∃ k, l.temporaryOf? input = some k

theorem sides_ofInputs {chainP chainQ : Option Nat} (hp : Side l p chainP) (hq : Side l q chainQ) :
    Side l (PairStream.ofInputs p q chainP chainQ).hi (PairStream.ofInputs p q chainP chainQ).chainHi ∧
      Side l (PairStream.ofInputs p q chainP chainQ).lo
        (PairStream.ofInputs p q chainP chainQ).chainLo := by
  rw [PairStream.ofInputs]
  split
  · exact ⟨hp, hq⟩
  · exact ⟨hq, hp⟩

/-- The uses of pair streams are of inputs, at iterations and for computed
elements. -/
theorem IsOf.pair_inside (h : s.IsOf m l rows) (wf : l.tape.WellFormed) {u : Use PairStream}
    (hu : u ∈ s.sparsity.toList.flatMap (s.pairUses layout)) :
    Side l u.stream.hi u.stream.chainHi ∧ Side l u.stream.lo u.stream.chainLo ∧
      u.iteration < l.iterations ∧ ∃ e : Nat × Nat, layout.computed[e]? = some u.location := by
  obtain ⟨⟨p, q⟩, mem, hu⟩ := List.mem_flatMap.mp hu
  obtain ⟨-, hit, hs⟩ := mem_pairUses.mp hu
  obtain ⟨row, chainP, col, chainQ, hp, hq, computed, eq⟩ := mem_streamsAt.mp hs
  have lt := wf.meet_lt ((h.sparsity p q).mp (TreeSet.mem_toList.mp mem))
  have sides := sides_ofInputs (l := l) ⟨lt.1, h.of_mem_behind hp⟩ ⟨lt.2, h.of_mem_behind hq⟩
  rw [eq] at sides
  exact ⟨sides.1, sides.2, h.loop ▸ hit, _, computed⟩

/-- The uses of second derivatives are of temporaries, for computed elements
at which they can be nonzero. -/
theorem IsOf.second_inside (h : s.IsOf m l rows) {u : Use SecondStream}
    (hu : u ∈ s.curved.flatMap (s.secondUses layout)) : u.iteration < l.iterations ∧
      layout.computed[(u.stream.row, u.stream.col)]? = some u.location ∧ ∃ o k,
        m.outer? = some o ∧ l.temporaryOf? u.stream.input = some k ∧
          o.tape.Meet [o.tape.outputAt (o.temporaryOutput k)] u.stream.row u.stream.col := by
  obtain ⟨⟨q, pattern⟩, mem, hu⟩ := List.mem_flatMap.mp hu
  obtain ⟨input, mem', hit, computed⟩ := mem_secondUses.mp hu
  obtain ⟨o, k, ho, ht, pairs⟩ := h.curved mem
  exact ⟨h.loop ▸ hit, computed, o, k, ho, input ▸ ht, (pairs _ _).mp mem'⟩

theorem nodup_temporaryInputs (l : Loop F) : (l.temporaryInputs.map Prod.fst).Nodup := by
  have positions : l.temporaryInputs.map Prod.fst =
      (l.temporaries.zipIdx.map Prod.snd).map (l.temporaryOffset + ·) := by
    rw [Loop.temporaryInputs, List.map_map, List.map_map]
    rfl
  rw [positions, List.zipIdx_map_snd]
  exact List.Nodup.map (fun i j eq => Nat.add_left_cancel eq) (List.nodup_range' ..)

/-- The structure of a loop can be read off. -/
theorem yields_loopStructure (rows : List (TreeMap Nat (Value F))) {asm : Assembly F}
    (model : asm.model = m) (accepted : m.Accepted) (hl : l ∈ m.loops) :
    Yields (asm.loopStructure l rows) () fun s _ => s.IsOf m l rows := by
  rw [Assembly.loopStructure, Loop.hessianSparsity]
  refine (accepted.loopTape hl).yields_hessianSparsity.bind fun sparsity _ _ hs => ?_
  have dependencies (q : Nat) : (TreeMap.ofList (l.temporaryInputs.map fun (input, k) =>
      (input, (TreeSet.ofList (rows.getD k ∅).keys : IndexSet))))[q]? =
        (l.temporaryOf? q).map fun k => TreeSet.ofList (rows.getD k ∅).keys := by
    refine Option.ext fun js => ?_
    have nodup : ((l.temporaryInputs.map fun (input, k) =>
        (input, (TreeSet.ofList (rows.getD k ∅).keys : IndexSet))).map Prod.fst).Nodup := by
      rw [List.map_map]
      exact nodup_temporaryInputs l
    rw [getElem?_ofList nodup, List.mem_map, Option.map_eq_some_iff]
    constructor
    · rintro ⟨⟨input, k⟩, mem, eq⟩
      cases eq
      exact ⟨k, Loop.mem_temporaryInputs.mp mem, rfl⟩
    · rintro ⟨k, ht, rfl⟩
      exact ⟨(q, k), Loop.mem_temporaryInputs.mpr ht, rfl⟩
  have finish (curved : List (Nat × PairSet)) (hc : ∀ {q : Nat} {pattern : PairSet},
      (q, pattern) ∈ curved → ∃ o k, m.outer? = some o ∧ l.temporaryOf? q = some k ∧
        (∀ i j, (i, j) ∈ pattern ↔ o.tape.Meet [o.tape.outputAt (o.temporaryOutput k)] i j) ∧
        ∃ out ∈ l.tape.outputs, l.tape.DependsOn out q)
      (listed : ∀ {o : Outer F} {q k : Nat}, m.outer? = some o → l.temporaryOf? q = some k →
        (∃ out ∈ l.tape.outputs, l.tape.DependsOn out q) → ∃ pattern, (q, pattern) ∈ curved) :
      IsOf ⟨l, sparsity, TreeMap.ofList (l.temporaryInputs.map fun (input, k) =>
        (input, (TreeSet.ofList (rows.getD k ∅).keys : IndexSet))), curved⟩ m l rows := by
    refine ⟨rfl, hs, dependencies, fun mem => ?_, fun mem => ?_, listed⟩
    · obtain ⟨o, k, ho, ht, pairs, -⟩ := hc mem
      exact ⟨o, k, ho, ht, pairs⟩
    · obtain ⟨-, -, -, -, -, used⟩ := hc mem
      exact used
  rw [model]
  cases ho : m.outer? with
  | none =>
      exact yields_pure (finish [] (fun mem => absurd mem List.not_mem_nil)
        fun ho' => absurd (ho'.symm.trans ho) (Option.some_ne_none _))
  | some o =>
      refine (Loop.yields_usedInputs (accepted.loopTape hl)).bind fun used _ _ hu => ?_
      refine (yields_mapM (P := fun (e : Nat × Nat) (r : Nat × PairSet) _ => r.1 = e.1 ∧
        ∀ i j, (i, j) ∈ r.2 ↔ o.tape.Meet [o.tape.outputAt (o.temporaryOutput e.2)] i j)
        (fun _ _ _ _ _ h => h) ?_).bind fun curved _ _ hc => yields_pure (finish curved ?_ ?_)
      · rintro ⟨q, k⟩ mem _ -
        have ht := Loop.mem_temporaryInputs.mp (List.mem_filter.mp mem).1
        refine (accepted.yields_temporaryHessianSparsity ho
          (accepted.temporary_lt hl ho ht)).bind fun pairs _ _ h => ?_
        exact yields_pure ⟨rfl, h⟩
      · intro q pattern mem
        obtain ⟨i, hi⟩ := List.mem_iff_getElem?.mp mem
        obtain ⟨⟨q', k⟩, hq, rfl, pairs⟩ := exists_left_of_forall₂ hc hi
        obtain ⟨mem', asked⟩ := List.mem_filter.mp (List.mem_of_getElem? hq)
        exact ⟨o, k, ho, Loop.mem_temporaryInputs.mp mem', pairs,
          (hu q).mp (TreeSet.contains_iff_mem.mp asked)⟩
      · intro _ q k _ ht reaches
        have asked : (q, k) ∈ l.temporaryInputs.filter fun (input, _) => used.contains input :=
          List.mem_filter.mpr ⟨Loop.mem_temporaryInputs.mpr ht,
            TreeSet.contains_iff_mem.mpr ((hu q).mpr reaches)⟩
        obtain ⟨i, hi⟩ := List.mem_iff_getElem?.mp asked
        obtain ⟨⟨q', pattern⟩, hq, rfl, -⟩ := exists_right_of_forall₂ hc hi
        exact ⟨pattern, List.mem_of_getElem? hq⟩

end

end LoopStructure

end LoopDiff
