import LoopDiff.Proofs.Assembly.Multiplicity
import LoopDiff.Proofs.Model.Tables

/-!
# LoopDiff.Proofs.Assembly.Probing

The streams of a Hessian, looked up element by element.

The streams of a loop go through the pattern of its tape: a pair of inputs claims
the elements that it belongs to (`LoopStructure.streams`).  The other way round,
an element can look up the pairs that belong to it (`LoopStructure.probe`).  Pairs
of independents are in the four tables under the row and the column.  A
temporary that depends on the row or on the column is paired with the inputs
that read the other one: the non-indexed input that is found for it, and the
indexed inputs of the table of temporaries.  Two temporaries are looked for in the
pattern.

Both ways claim the same streams, for the same locations, as often
(`Model.Accepted.exists_probe`).  Each use is labelled with the two inputs that it
comes from, in the order of the row and the column.  Then no labelled use is
repeated, and the elements have the labelled uses that the pairs have
(`LoopStructure.Proper.mem_elementUses`).
-/

namespace LoopDiff

open Std (TreeMap TreeSet)

/-! ## Looking up an element -/

namespace LoopStructure

variable {F : Type} (l : LoopStructure F)

/-- Whether a temporary input depends on an independent. -/
def dependsOn (input independent : Nat) : Bool :=
  (l.dependencies[input]?).any fun independents => independents.contains independent

/-- Claims the streams of those pairs under a key of a table that pass a test,
each at the iterations where it is there. -/
def claimSets (sets : List PairSet) (test : Nat × Nat → Bool) (stream : Nat × Nat → PairStream)
    (location : Nat) (s : HessianStreams) : Except Failure HessianStreams :=
  sets.zipIdx.foldlM (fun s (pairs, it) =>
    (pairs.toList.filter test).foldlM (fun s pair =>
      s.claimPair (stream pair) it location pair) s) s

/-- The pairs of independents, by whether the inputs are indexed. -/
def groups : List (Bool × Bool) := [(true, true), (true, false), (false, true), (false, false)]

/-- The non-indexed input, if the temporary input meets it, that is found for an
independent. -/
def found (input independent : Nat) : List Nat :=
  (l.loop.nonIndexed? independent).toList.filter fun p => l.sparsity.contains (input, p)

/-- Claims the streams of a temporary input, if it depends on the independent that
its chain goes on to, and the inputs that read another independent. -/
def claimSide (input temporary chain independent location : Nat) (s : HessianStreams) :
    Except Failure HessianStreams :=
  if l.dependsOn input chain then do
    let s ← (l.found input independent).foldlM (fun s p =>
      s.claimPairAlways ⟨input, p, some chain, none⟩ l.loop.iterations location (input, p)) s
    claimSets (l.loop.temporaryPairs l.sparsity temporary independent) (fun e => e.1 == input)
      (fun e => ⟨input, e.2, some chain, none⟩) location s
  else return s

/-- The pairs of temporary inputs of which the first depends on the row and the
second on the column. -/
def meeting (row col : Nat) : List (Nat × Nat) :=
  let inputs := l.loop.temporaryInputs.map Prod.fst
  (inputs.filter (l.dependsOn · row) ×ˢ inputs.filter (l.dependsOn · col)).filter
    l.sparsity.contains

/-- Claims the pair streams of an element. -/
def claimElementPairs (row col location : Nat) (s : HessianStreams) :
    Except Failure HessianStreams := do
  let s ← groups.foldlM (fun s (indexed₁, indexed₂) =>
    claimSets (l.loop.independentPairs l.sparsity indexed₁ indexed₂ row col) (fun _ => true)
      (fun e => .ofInputs e.1 e.2 none none) location s) s
  let s ← l.loop.temporaryInputs.foldlM (fun s (input, temporary) => do
    let s ← l.claimSide input temporary col row location s
    l.claimSide input temporary row col location s) s
  (l.meeting row col).foldlM (fun s (p, q) =>
    s.claimPairAlways (.ofInputs p q (some row) (some col)) l.loop.iterations location (p, q)) s

/-- Claims the second derivatives of temporaries for an element. -/
def claimElementSeconds (row col location : Nat) (s : HessianStreams) :
    Except Failure HessianStreams :=
  (l.curved.filter fun e => e.2.contains (row, col)).foldlM (fun s (input, _) =>
    s.claimSecond ⟨input, row, col⟩ l.loop.iterations location) s

/-- The claims of all computed elements, element by element. -/
def probe (layout : Layout) : Except Failure HessianStreams :=
  layout.computed.toList.foldlM (fun s ((row, col), location) => do
    l.claimElementSeconds row col location (← l.claimElementPairs row col location s))
    HessianStreams.empty

end LoopStructure

/-! ## Labelled uses -/

/-- A use of a pair stream, with the two inputs that it comes from. -/
abbrev PairUse := (Nat × Nat) × Use PairStream

/-- Uses that can be claimed one after the other, in a loop of `n` iterations. -/
structure Compatible (n : Nat) (uses : List (Use PairStream)) : Prop where
  one : OneLocation uses
  inside : ∀ u ∈ uses, u.iteration < n

theorem Compatible.mono {n : Nat} {uses uses' : List (Use PairStream)} (h : Compatible n uses')
    (sub : uses ⊆ uses') : Compatible n uses :=
  ⟨h.one.mono sub, fun u hu => h.inside u (sub hu)⟩

open HessianStreams

/-- A computation that claims some more uses, if they are compatible with what has
been claimed. -/
structure AddsUses (n : Nat) (f : HessianStreams → Except Failure HessianStreams)
    (new : List PairUse) : Prop where
  yields {s : HessianStreams} {P : List (Use PairStream)} {S : List (Use SecondStream)} :
    s.Claimed P S → Compatible n (P ++ new.map Prod.snd) →
      Yields (f s) () fun s' _ => s'.Claimed (P ++ new.map Prod.snd) S

section

variable {n it location : Nat} {f g : HessianStreams → Except Failure HessianStreams}
  {new new' : List PairUse} {stream : PairStream} {pair label : Nat × Nat}

theorem addsUses_pure : AddsUses n (fun s => pure s) [] where
  yields h _ := by
    rw [List.map_nil, List.append_nil]
    exact yields_pure h

theorem AddsUses.bind (hf : AddsUses n f new) (hg : AddsUses n g new') :
    AddsUses n (fun s => f s >>= g) (new ++ new') where
  yields h compatible := by
    rw [List.map_append, ← List.append_assoc] at compatible ⊢
    exact (hf.yields h (compatible.mono (List.subset_append_left ..))).bind fun s' _ _ h' =>
      hg.yields h' compatible

theorem AddsUses.ite {b : Bool} (hf : AddsUses n f new) :
    AddsUses n (fun s => if b then f s else pure s) (if b then new else []) := by
  cases b with
  | true => exact hf
  | false => exact addsUses_pure

theorem AddsUses.foldlM {α : Type} {f : HessianStreams → α → Except Failure HessianStreams}
    {new : α → List PairUse} (h : ∀ x, AddsUses n (f · x) (new x)) (xs : List α) :
    AddsUses n (fun s => xs.foldlM f s) (xs.flatMap new) := by
  induction xs with
  | nil => exact addsUses_pure
  | cons x xs ih => exact (h x).bind ih

theorem addsUses_claimPair :
    AddsUses n (fun s => s.claimPair stream it location pair) [(label, ⟨stream, it, location⟩)] :=
  ⟨fun h compatible => h.yields_claimPair compatible.one⟩

theorem addsUses_claimPairAlways (pos : 0 < n) :
    AddsUses n (fun s => s.claimPairAlways stream n location pair)
      ((List.range n).map fun it => (label, ⟨stream, it, location⟩)) where
  yields h compatible := by
    rw [List.map_map] at compatible ⊢
    exact h.yields_claimPairAlways pos
      (fun u hu => compatible.inside u (List.mem_append_left _ hu)) compatible.one

end

/-- The uses that pairs under a key of a table make for a location. -/
def setUses (sets : List PairSet) (test : Nat × Nat → Bool) (label : Nat × Nat → Nat × Nat)
    (stream : Nat × Nat → PairStream) (location : Nat) : List PairUse :=
  sets.zipIdx.flatMap fun (pairs, it) =>
    (pairs.toList.filter test).map fun e => (label e, ⟨stream e, it, location⟩)

section

variable {n location : Nat} {sets : List PairSet} {test : Nat × Nat → Bool}
  {label : Nat × Nat → Nat × Nat} {stream : Nat × Nat → PairStream} {x : PairUse}

theorem addsUses_claimSets : AddsUses n (LoopStructure.claimSets sets test stream location)
    (setUses sets test label stream location) := by
  refine AddsUses.foldlM (fun (pairs, it) => ?_) sets.zipIdx
  dsimp only
  rw [List.map_eq_flatMap]
  exact AddsUses.foldlM (fun e => addsUses_claimPair) (pairs.toList.filter test)

theorem mem_setUses : x ∈ setUses sets test label stream location ↔
    ∃ e ∈ sets.getD x.2.iteration ∅, test e = true ∧ x.1 = label e ∧ x.2.stream = stream e ∧
      x.2.location = location := by
  rw [setUses, List.mem_flatMap]
  constructor
  · rintro ⟨⟨pairs, it⟩, mem, hx⟩
    obtain ⟨e, he, rfl⟩ := List.mem_map.mp hx
    obtain ⟨he, passes⟩ := List.mem_filter.mp he
    have here := List.mem_zipIdx_iff_getElem?.mp mem
    refine ⟨e, ?_, passes, rfl, rfl, rfl⟩
    rw [List.getD_eq_getElem?_getD, here]
    exact TreeSet.mem_toList.mp he
  · obtain ⟨_, _, it, _⟩ := x
    rintro ⟨e, he, passes, rfl, rfl, rfl⟩
    cases here : sets[it]? with
    | none => simp [List.getD_eq_getElem?_getD, here] at he
    | some pairs =>
        rw [List.getD_eq_getElem?_getD, here] at he
        exact ⟨(pairs, it), List.mem_zipIdx_iff_getElem?.mpr here, List.mem_map.mpr
          ⟨e, List.mem_filter.mpr ⟨TreeSet.mem_toList.mpr he, passes⟩, rfl⟩⟩

theorem nodup_setUses (inj : ∀ e e', test e = true → test e' = true → label e = label e' → e = e') :
    (setUses sets test label stream location).Nodup := by
  refine nodup_flatMap_of_key Prod.snd (fun x => x.2.iteration) ?_ ?_ ?_
  · rw [List.zipIdx_map_snd]
    exact List.nodup_range' ..
  · rintro ⟨pairs, it⟩ -
    refine ((nodup_toList pairs).filter _).map_on fun e he e' he' eq => ?_
    exact inj e e' (List.mem_filter.mp he).2 (List.mem_filter.mp he').2 (Prod.mk.inj eq).1
  · rintro ⟨pairs, it⟩ - y hy
    obtain ⟨e, -, rfl⟩ := List.mem_map.mp hy
    rfl

end

namespace LoopStructure

variable {F : Type} (l : LoopStructure F)

/-- The uses of a stream that two inputs make at all iterations. -/
def steadyUses (label : Nat × Nat) (stream : PairStream) (location : Nat) : List PairUse :=
  (List.range l.loop.iterations).map fun it => (label, ⟨stream, it, location⟩)

/-- The uses that a temporary input makes with the inputs that read an
independent. -/
def sideUses (input temporary chain independent location : Nat) (label : Nat → Nat × Nat) :
    List PairUse :=
  if l.dependsOn input chain then
    (l.found input independent).flatMap (fun p =>
      l.steadyUses (label p) ⟨input, p, some chain, none⟩ location) ++
    setUses (l.loop.temporaryPairs l.sparsity temporary independent) (fun e => e.1 == input)
      (fun e => label e.2) (fun e => ⟨input, e.2, some chain, none⟩) location
  else []

/-- The uses that pairs of independents make for an element. -/
def independentUses (row col location : Nat) : List PairUse :=
  groups.flatMap fun (indexed₁, indexed₂) =>
    setUses (l.loop.independentPairs l.sparsity indexed₁ indexed₂ row col) (fun _ => true) id
      (fun e => .ofInputs e.1 e.2 none none) location

/-- The uses that temporary inputs and independents make for an element. -/
def temporaryUses (row col location : Nat) : List PairUse :=
  l.loop.temporaryInputs.flatMap fun (input, temporary) =>
    l.sideUses input temporary col row location (·, input) ++
      l.sideUses input temporary row col location (input, ·)

/-- The uses that pairs of temporary inputs make for an element. -/
def meetingUses (row col location : Nat) : List PairUse :=
  (l.meeting row col).flatMap fun e =>
    l.steadyUses e (.ofInputs e.1 e.2 (some row) (some col)) location

/-- The uses that an element has. -/
def elementUses (row col location : Nat) : List PairUse :=
  l.independentUses row col location ++
    (l.temporaryUses row col location ++ l.meetingUses row col location)

variable {l} {row col location : Nat}

theorem addsUses_claimSide (pos : 0 < l.loop.iterations)
    {input temporary chain independent : Nat} {label : Nat → Nat × Nat} :
    AddsUses l.loop.iterations (l.claimSide input temporary chain independent location)
      (l.sideUses input temporary chain independent location label) :=
  (AddsUses.bind (AddsUses.foldlM (fun _ => addsUses_claimPairAlways pos) _)
    addsUses_claimSets).ite

theorem addsUses_claimElementPairs (pos : 0 < l.loop.iterations) :
    AddsUses l.loop.iterations (l.claimElementPairs row col location)
      (l.elementUses row col location) := by
  refine AddsUses.bind (AddsUses.foldlM (fun _ => addsUses_claimSets) _) ?_
  refine AddsUses.bind (AddsUses.foldlM (fun _ => ?_) _)
    (AddsUses.foldlM (fun _ => addsUses_claimPairAlways pos) _)
  exact (addsUses_claimSide pos).bind (addsUses_claimSide pos)

/-! ## What belongs to an element -/

/-- What is known of the structure of a loop of an accepted model. -/
structure Proper (l : LoopStructure F) : Prop where
  valid : l.loop.Valid
  lt {p q : Nat} : (p, q) ∈ l.sparsity → p < l.loop.tape.inputCount
  symm {p q : Nat} : (p, q) ∈ l.sparsity → (q, p) ∈ l.sparsity
  dependencies (q : Nat) : (l.dependencies[q]?).isSome = (l.loop.temporaryOf? q).isSome

section

variable {p q it j input temporary chain independent : Nat} {c : Option Nat} {x : PairUse}

theorem Proper.isTemporary_eq (h : l.Proper) (lt : p < l.loop.tape.inputCount) :
    l.loop.isTemporary p = (l.loop.temporaryOf? p).isSome := by
  rw [Loop.isTemporary, Loop.temporaryOf?, decide_eq_true lt, Bool.and_true]
  split
  case isTrue past =>
      have inputs := h.valid.inputs
      rw [Loop.temporaryOffset] at past ⊢
      rw [decide_eq_true past, List.getElem?_eq_getElem (by omega), Option.isSome_some]
  case isFalse before => exact decide_eq_false before

theorem Proper.isTemporary_eq_false (h : l.Proper) (lt : p < l.loop.tape.inputCount)
    (ht : l.loop.temporaryOf? p = none) : l.loop.isTemporary p = false := by
  rw [h.isTemporary_eq lt, ht, Option.isSome_none]

theorem Proper.mem_behind_temporary (h : l.Proper) (ht : l.loop.temporaryOf? p = some temporary) :
    (j, c) ∈ l.behind p it ↔ l.dependsOn p j = true ∧ c = some j := by
  obtain ⟨independents, some⟩ := Option.isSome_iff_exists.mp ((h.dependencies p).trans (ht ▸ rfl))
  simp only [behind, dependsOn, some, Option.any_some, List.mem_map, TreeSet.mem_toList,
    Prod.mk.injEq, TreeSet.contains_iff_mem]
  constructor
  · rintro ⟨_, mem, rfl, rfl⟩
    exact ⟨mem, rfl⟩
  · rintro ⟨mem, rfl⟩
    exact ⟨j, mem, rfl, rfl⟩

theorem Proper.mem_behind_independent (h : l.Proper) (ht : l.loop.temporaryOf? p = none) :
    (j, c) ∈ l.behind p it ↔ l.loop.independentAt? p it = some j ∧ c = none := by
  have none : l.dependencies[p]? = none := by
    rw [← Option.not_isSome_iff_eq_none, h.dependencies, ht]
    exact Bool.false_ne_true
  simp only [behind, none, List.mem_map, Option.mem_toList, Prod.mk.injEq]
  constructor
  · rintro ⟨_, read, rfl, rfl⟩
    exact ⟨read, rfl⟩
  · rintro ⟨read, rfl⟩
    exact ⟨j, read, rfl, rfl⟩

theorem temporaryOf?_of_reads {indexed : Bool} (h : l.loop.Reads it p (.independent indexed) j) :
    l.loop.temporaryOf? p = none := by
  refine if_neg (Nat.not_le_of_lt ?_)
  cases h with
  | indexed hrow _ => exact Nat.lt_add_right _ (List.getElem?_eq_some_iff.mp hrow).1
  | nonIndexed hj => exact Nat.add_lt_add_left (List.getElem?_eq_some_iff.mp hj).1 _

/-- A temporary meets an input that reads an independent, if it is indexed or is
the one that is found for the independent. -/
def Finds (l : LoopStructure F) (it independent q : Nat) : Prop :=
  l.loop.nonIndexed? independent = some q ∨ l.loop.Reads it q (.independent true) independent

theorem getElem?_of_lastIdx? {x i : Nat} {xs : List Nat} (h : lastIdx? x xs = some i) :
    xs[i]? = some x := by
  obtain ⟨⟨y, i'⟩, mem, here⟩ := List.exists_of_findSome?_eq_some h
  rw [List.mem_reverse, List.mem_zipIdx_iff_getElem?] at mem
  dsimp only at mem here
  split at here
  case isTrue eq =>
      cases here
      rwa [← eq_of_beq eq]
  case isFalse => cases here

theorem reads_of_nonIndexed? (it : Nat) (h : l.loop.nonIndexed? independent = some q) :
    l.loop.Reads it q (.independent false) independent := by
  obtain ⟨i, last, rfl⟩ := Option.map_eq_some_iff.mp h
  exact .nonIndexed (getElem?_of_lastIdx? last)

theorem Finds.temporaryOf? (h : l.Finds it independent q) : l.loop.temporaryOf? q = none :=
  h.elim (fun last => temporaryOf?_of_reads (reads_of_nonIndexed? it last))
    temporaryOf?_of_reads

theorem Proper.finds_iff (h : l.Proper) (lt : q < l.loop.tape.inputCount)
    (ht : l.loop.temporaryOf? q = none) : l.Finds it j q ↔
      l.meetsTemporary q = true ∧ l.loop.independentAt? q it = some j := by
  rw [Finds, meetsTemporary, h.isTemporary_eq_false lt ht, Bool.or_false, Bool.or_eq_true, beq_iff_eq,
    Loop.reads_independent]
  constructor
  · rintro (last | ⟨indexed, read⟩)
    · have read (it : Nat) := (Loop.reads_independent.mp (reads_of_nonIndexed? it last)).2
      exact ⟨.inr (by rw [read 0, Option.bind_some, last]), read it⟩
    · exact ⟨.inl indexed, read⟩
  · rintro ⟨indexed | last, read⟩
    · exact .inr ⟨indexed, read⟩
    · cases indexed : l.loop.isIndexed q with
      | true => exact .inr ⟨rfl, read⟩
      | false =>
          rw [← independentAt?_eq indexed it, read, Option.bind_some] at last
          exact .inl last

theorem mem_steadyUses {label : Nat × Nat} {stream : PairStream} :
    x ∈ l.steadyUses label stream location ↔ x.2.iteration < l.loop.iterations ∧
      x.1 = label ∧ x.2.stream = stream ∧ x.2.location = location := by
  rw [steadyUses, List.mem_map]
  constructor
  · rintro ⟨it, hit, rfl⟩
    exact ⟨List.mem_range.mp hit, rfl, rfl, rfl⟩
  · rintro ⟨hit, rfl, rfl, rfl⟩
    exact ⟨_, List.mem_range.mpr hit, rfl⟩

theorem Proper.mem_sideUses (h : l.Proper) (ht : l.loop.temporaryOf? input = some temporary)
    {label : Nat → Nat × Nat} :
    x ∈ l.sideUses input temporary chain independent location label ↔
      l.dependsOn input chain = true ∧ x.2.iteration < l.loop.iterations ∧
        ∃ q, (input, q) ∈ l.sparsity ∧ l.Finds x.2.iteration independent q ∧ x.1 = label q ∧
          x.2.stream = ⟨input, q, some chain, none⟩ ∧ x.2.location = location := by
  rw [sideUses]
  split
  case isFalse independent => simp [independent]
  case isTrue depends =>
      rw [List.mem_append, List.mem_flatMap, mem_setUses, and_iff_right depends]
      constructor
      · rintro (⟨q, mem, hx⟩ | ⟨⟨_, q⟩, mem, same, here⟩)
        · obtain ⟨hit, here⟩ := mem_steadyUses.mp hx
          obtain ⟨last, meet⟩ := List.mem_filter.mp mem
          exact ⟨hit, q, TreeSet.contains_iff_mem.mp meet, .inl (Option.mem_toList.mp last), here⟩
        · cases eq_of_beq same
          obtain ⟨meet, hit, -, read⟩ := h.valid.mem_temporaryPairs.mp mem
          exact ⟨hit, q, meet, .inr read, here⟩
      · rintro ⟨hit, q, meet, last | read, here⟩
        · refine .inl ⟨q, List.mem_filter.mpr ⟨Option.mem_toList.mpr last, ?_⟩,
            mem_steadyUses.mpr ⟨hit, here⟩⟩
          exact TreeSet.contains_iff_mem.mpr meet
        · exact .inr ⟨(input, q), h.valid.mem_temporaryPairs.mpr
            ⟨meet, hit, Loop.reads_temporary.mpr ht, read⟩, beq_self_eq_true input, here⟩

theorem Proper.mem_independentUses (h : l.Proper) :
    x ∈ l.independentUses row col location ↔ x.1 ∈ l.sparsity ∧ x.2.iteration < l.loop.iterations ∧
      (∃ indexed, l.loop.Reads x.2.iteration x.1.1 (.independent indexed) row) ∧
      (∃ indexed, l.loop.Reads x.2.iteration x.1.2 (.independent indexed) col) ∧
      x.2.stream = .ofInputs x.1.1 x.1.2 none none ∧ x.2.location = location := by
  rw [independentUses, List.mem_flatMap]
  constructor
  · rintro ⟨⟨b₁, b₂⟩, -, hx⟩
    obtain ⟨e, mem, -, same, here⟩ := mem_setUses.mp hx
    obtain ⟨meet, hit, first, second⟩ := h.valid.mem_independentPairs.mp mem
    rw [same]
    exact ⟨meet, hit, ⟨b₁, first⟩, ⟨b₂, second⟩, here⟩
  · rintro ⟨meet, hit, ⟨b₁, first⟩, ⟨b₂, second⟩, here⟩
    exact ⟨(b₁, b₂), by cases b₁ <;> cases b₂ <;> decide, mem_setUses.mpr
      ⟨x.1, h.valid.mem_independentPairs.mpr ⟨meet, hit, first, second⟩, rfl, rfl, here⟩⟩

theorem mem_meeting : (p, q) ∈ l.meeting row col ↔
    ((∃ k, l.loop.temporaryOf? p = some k) ∧ l.dependsOn p row = true) ∧
      ((∃ k, l.loop.temporaryOf? q = some k) ∧ l.dependsOn q col = true) ∧ (p, q) ∈ l.sparsity := by
  have input (q : Nat) : q ∈ l.loop.temporaryInputs.map Prod.fst ↔
      ∃ k, l.loop.temporaryOf? q = some k := by
    simp [Loop.mem_temporaryInputs]
  rw [meeting, List.mem_filter, List.mem_product, List.mem_filter, List.mem_filter, input, input,
    TreeSet.contains_iff_mem, and_assoc]

theorem mem_meetingUses : x ∈ l.meetingUses row col location ↔
    x.1 ∈ l.sparsity ∧ x.2.iteration < l.loop.iterations ∧
      (∃ k, l.loop.temporaryOf? x.1.1 = some k) ∧ (∃ k, l.loop.temporaryOf? x.1.2 = some k) ∧
      l.dependsOn x.1.1 row = true ∧ l.dependsOn x.1.2 col = true ∧
      x.2.stream = .ofInputs x.1.1 x.1.2 (some row) (some col) ∧ x.2.location = location := by
  rw [meetingUses, List.mem_flatMap]
  constructor
  · rintro ⟨e, he, hx⟩
    obtain ⟨hit, same, here⟩ := mem_steadyUses.mp hx
    obtain ⟨⟨first, onRow⟩, ⟨second, onCol⟩, meet⟩ := mem_meeting.mp he
    rw [same]
    exact ⟨meet, hit, first, second, onRow, onCol, here⟩
  · rintro ⟨meet, hit, first, second, onRow, onCol, here⟩
    exact ⟨x.1, mem_meeting.mpr ⟨⟨first, onRow⟩, ⟨second, onCol⟩, meet⟩,
      mem_steadyUses.mpr ⟨hit, rfl, here⟩⟩

theorem mem_temporaryUses : x ∈ l.temporaryUses row col location ↔ ∃ input temporary,
    l.loop.temporaryOf? input = some temporary ∧
      (x ∈ l.sideUses input temporary col row location (·, input) ∨
        x ∈ l.sideUses input temporary row col location (input, ·)) := by
  simp [temporaryUses, Loop.mem_temporaryInputs]

/-- Temporaries come after the independents. -/
theorem Proper.lt_of_temporaryOf? (h : l.Proper) (lt : p < l.loop.tape.inputCount)
    (hp : l.loop.temporaryOf? p = none) (hq : l.loop.temporaryOf? q = some temporary) : p < q := by
  have independent := h.isTemporary_eq_false lt hp
  rw [Loop.isTemporary, decide_eq_true lt, Bool.and_true, decide_eq_false_iff_not] at independent
  rw [Loop.temporaryOf?] at hq
  split at hq
  case isTrue past => omega
  case isFalse => cases hq

/-- A use of two inputs belongs to an element if the first stands for the row and
the second for the column, and the two meet. -/
def Belongs (l : LoopStructure F) (row col location : Nat) (x : PairUse) : Prop :=
  x.1 ∈ l.sparsity ∧ l.contributes x.1.1 x.1.2 = true ∧ x.2.iteration < l.loop.iterations ∧
    ∃ chainP chainQ, (row, chainP) ∈ l.behind x.1.1 x.2.iteration ∧
      (col, chainQ) ∈ l.behind x.1.2 x.2.iteration ∧
        x.2.stream = .ofInputs x.1.1 x.1.2 chainP chainQ ∧ x.2.location = location

theorem Proper.contributes_eq (h : l.Proper) (meet : (p, q) ∈ l.sparsity) :
    l.contributes p q = ((!(l.loop.temporaryOf? p).isSome || l.meetsTemporary q) &&
      (!(l.loop.temporaryOf? q).isSome || l.meetsTemporary p)) := by
  rw [contributes, h.isTemporary_eq (h.lt meet), h.isTemporary_eq (h.lt (h.symm meet))]

theorem Proper.meetsTemporary_of_temporaryOf? (h : l.Proper) (lt : p < l.loop.tape.inputCount)
    (hp : l.loop.temporaryOf? p = some temporary) : l.meetsTemporary p = true := by
  rw [meetsTemporary, h.isTemporary_eq lt, hp, Option.isSome_some, Bool.or_true, Bool.true_or]

theorem Proper.belongs_of_independents (h : l.Proper)
    (hx : x ∈ l.independentUses row col location) : l.Belongs row col location x := by
  obtain ⟨meet, hit, ⟨_, first⟩, ⟨_, second⟩, here⟩ := h.mem_independentUses.mp hx
  have hp := temporaryOf?_of_reads first
  have hq := temporaryOf?_of_reads second
  refine ⟨meet, by rw [h.contributes_eq meet, hp, hq]; rfl, hit, none, none, ?_, ?_, here⟩
  · exact (h.mem_behind_independent hp).mpr ⟨(Loop.reads_independent.mp first).2, rfl⟩
  · exact (h.mem_behind_independent hq).mpr ⟨(Loop.reads_independent.mp second).2, rfl⟩

theorem Proper.belongs_of_temporaries (h : l.Proper)
    (hx : x ∈ l.temporaryUses row col location) : l.Belongs row col location x := by
  obtain ⟨e, u⟩ := x
  obtain ⟨input, temporary, ht, side | side⟩ := mem_temporaryUses.mp hx
  all_goals
    obtain ⟨depends, hit, other, meet, finds, rfl, same, place⟩ := (h.mem_sideUses ht).mp side
    have ho := finds.temporaryOf?
    have lt := h.lt (h.symm meet)
    obtain ⟨meets, read⟩ := (h.finds_iff lt ho).mp finds
    have reads : (_, none) ∈ l.behind other u.iteration :=
      (h.mem_behind_independent ho).mpr ⟨read, rfl⟩
    have chained : (_, some _) ∈ l.behind input u.iteration :=
      (h.mem_behind_temporary ht).mpr ⟨depends, rfl⟩
    have before := h.lt_of_temporaryOf? lt ho ht
  · have meet := h.symm meet
    refine ⟨meet, by rw [h.contributes_eq meet, ho, ht, meets]; rfl, hit, none, some col,
      reads, chained, same.trans ?_, place⟩
    exact (if_neg (Nat.not_le_of_lt before)).symm
  · refine ⟨meet, by rw [h.contributes_eq meet, ho, ht, meets]; rfl, hit, some row, none,
      chained, reads, same.trans ?_, place⟩
    exact (if_pos before.le).symm

theorem Proper.belongs_of_meeting (h : l.Proper) (hx : x ∈ l.meetingUses row col location) :
    l.Belongs row col location x := by
  obtain ⟨meet, hit, ⟨_, first⟩, ⟨_, second⟩, onRow, onCol, here⟩ := mem_meetingUses.mp hx
  have contributes : l.contributes x.1.1 x.1.2 = true := by
    rw [h.contributes_eq meet, h.meetsTemporary_of_temporaryOf? (h.lt meet) first,
      h.meetsTemporary_of_temporaryOf? (h.lt (h.symm meet)) second, Bool.or_true, Bool.or_true]
    rfl
  exact ⟨meet, contributes, hit, some row, some col,
    (h.mem_behind_temporary first).mpr ⟨onRow, rfl⟩,
    (h.mem_behind_temporary second).mpr ⟨onCol, rfl⟩, here⟩

theorem Proper.mem_of_belongs (h : l.Proper) (hx : l.Belongs row col location x) :
    x ∈ l.independentUses row col location ∨ x ∈ l.temporaryUses row col location ∨
      x ∈ l.meetingUses row col location := by
  obtain ⟨⟨p, q⟩, u⟩ := x
  obtain ⟨meet, contributes, hit, chainP, chainQ, behindP, behindQ, same, place⟩ := hx
  dsimp only at meet contributes hit behindP behindQ same place
  rw [h.contributes_eq meet] at contributes
  cases hp : l.loop.temporaryOf? p with
  | none =>
      obtain ⟨readP, rfl⟩ := (h.mem_behind_independent hp).mp behindP
      cases hq : l.loop.temporaryOf? q with
      | none =>
          obtain ⟨readQ, rfl⟩ := (h.mem_behind_independent hq).mp behindQ
          exact .inl (h.mem_independentUses.mpr ⟨meet, hit,
            ⟨_, Loop.reads_independent.mpr ⟨rfl, readP⟩⟩,
            ⟨_, Loop.reads_independent.mpr ⟨rfl, readQ⟩⟩, same, place⟩)
      | some temporary =>
          obtain ⟨depends, rfl⟩ := (h.mem_behind_temporary hq).mp behindQ
          have meets : l.meetsTemporary p = true := by simpa [hp, hq] using contributes
          have finds := (h.finds_iff (h.lt meet) hp).mpr ⟨meets, readP⟩
          have before := h.lt_of_temporaryOf? (h.lt meet) hp hq
          rw [PairStream.ofInputs, if_neg (Nat.not_le_of_lt before)] at same
          exact .inr (.inl (mem_temporaryUses.mpr ⟨q, temporary, hq, .inl ((h.mem_sideUses hq).mpr
            ⟨depends, hit, p, h.symm meet, finds, rfl, same, place⟩)⟩))
  | some temporary =>
      obtain ⟨onRow, rfl⟩ := (h.mem_behind_temporary hp).mp behindP
      cases hq : l.loop.temporaryOf? q with
      | none =>
          obtain ⟨readQ, rfl⟩ := (h.mem_behind_independent hq).mp behindQ
          have lt := h.lt (h.symm meet)
          have meets : l.meetsTemporary q = true := by simpa [hp, hq] using contributes
          have finds := (h.finds_iff lt hq).mpr ⟨meets, readQ⟩
          rw [PairStream.ofInputs, if_pos (h.lt_of_temporaryOf? lt hq hp).le] at same
          exact .inr (.inl (mem_temporaryUses.mpr ⟨p, temporary, hp, .inr ((h.mem_sideUses hp).mpr
            ⟨onRow, hit, q, meet, finds, rfl, same, place⟩)⟩))
      | some temporary' =>
          obtain ⟨onCol, rfl⟩ := (h.mem_behind_temporary hq).mp behindQ
          exact .inr (.inr (mem_meetingUses.mpr
            ⟨meet, hit, ⟨_, hp⟩, ⟨_, hq⟩, onRow, onCol, same, place⟩))

/-- An element looks up what belongs to it. -/
theorem Proper.mem_elementUses (h : l.Proper) :
    x ∈ l.elementUses row col location ↔ l.Belongs row col location x := by
  rw [elementUses, List.mem_append, List.mem_append]
  constructor
  · rintro (hx | hx | hx)
    · exact h.belongs_of_independents hx
    · exact h.belongs_of_temporaries hx
    · exact h.belongs_of_meeting hx
  · exact h.mem_of_belongs

/-! ## No repeats -/

theorem nodup_steadyUses (label : Nat × Nat) (stream : PairStream) :
    (l.steadyUses label stream location).Nodup :=
  List.nodup_range.map fun _ _ eq => congrArg (fun x : PairUse => x.2.iteration) eq

theorem Proper.nodup_sideUses (h : l.Proper) {label : Nat → Nat × Nat}
    (inj : Function.Injective label) :
    (l.sideUses input temporary chain independent location label).Nodup := by
  rw [sideUses]
  split
  case isFalse => exact List.nodup_nil
  case isTrue =>
      have once : (l.found input independent).Nodup := by
        refine List.Nodup.filter _ ?_
        cases l.loop.nonIndexed? independent with
        | none => exact List.nodup_nil
        | some q => exact List.nodup_singleton q
      refine List.Nodup.append ?_ (nodup_setUses fun e e' he he' eq => ?_) fun x hx hx' => ?_
      · exact nodup_flatMap_of_key label Prod.fst (once.map inj)
          (fun q _ => nodup_steadyUses _ _) fun q _ x hx => (mem_steadyUses.mp hx).2.1
      · exact Prod.ext ((eq_of_beq he).trans (eq_of_beq he').symm) (inj eq)
      · -- one of the inputs would be indexed and not indexed
        obtain ⟨q, mem, hx⟩ := List.mem_flatMap.mp hx
        obtain ⟨⟨_, q'⟩, mem', -, label', -⟩ := mem_setUses.mp hx'
        obtain rfl : q = q' := inj ((mem_steadyUses.mp hx).2.1.symm.trans label')
        have last := Option.mem_toList.mp (List.mem_filter.mp mem).1
        have fixed := (Loop.reads_independent.mp
          (reads_of_nonIndexed? x.2.iteration last)).1
        have indexed := (Loop.reads_independent.mp (h.valid.mem_temporaryPairs.mp mem').2.2.2).1
        cases fixed.symm.trans indexed

theorem Proper.nodup_independentUses (h : l.Proper) :
    (l.independentUses row col location).Nodup := by
  refine nodup_flatMap_of_key id (fun x =>
    (l.loop.isIndexed x.1.1, l.loop.isIndexed x.1.2)) (by decide)
    (fun _ _ => nodup_setUses fun _ _ _ _ eq => eq) fun ⟨b₁, b₂⟩ _ x hx => ?_
  obtain ⟨e, mem, -, same, -⟩ := mem_setUses.mp hx
  obtain ⟨-, -, first, second⟩ := h.valid.mem_independentPairs.mp mem
  rw [same]
  exact Prod.ext (Loop.reads_independent.mp first).1 (Loop.reads_independent.mp second).1

theorem Proper.nodup_temporaryUses (h : l.Proper) : (l.temporaryUses row col location).Nodup := by
  refine nodup_flatMap_of_key Prod.fst (fun x => max x.1.1 x.1.2)
    (nodup_temporaryInputs l.loop) ?_ ?_
  · rintro ⟨input, temporary⟩ mem
    have ht := Loop.mem_temporaryInputs.mp mem
    refine List.Nodup.append (h.nodup_sideUses fun _ _ eq => (Prod.mk.inj eq).1)
      (h.nodup_sideUses fun _ _ eq => (Prod.mk.inj eq).2) fun x hx hx' => ?_
    obtain ⟨-, -, q, -, finds, label, -⟩ := (h.mem_sideUses ht).mp hx
    obtain ⟨-, -, q', -, -, label', -⟩ := (h.mem_sideUses ht).mp hx'
    obtain ⟨rfl, -⟩ := Prod.mk.inj (label.symm.trans label')
    cases ht.symm.trans finds.temporaryOf?
  · rintro ⟨input, temporary⟩ mem x hx
    have ht := Loop.mem_temporaryInputs.mp mem
    rcases List.mem_append.mp hx with hx | hx
    all_goals
      obtain ⟨-, -, q, meet, finds, label, -⟩ := (h.mem_sideUses ht).mp hx
      have before := (h.lt_of_temporaryOf? (h.lt (h.symm meet)) finds.temporaryOf? ht).le
      rw [label]
    · exact Nat.max_eq_right before
    · exact Nat.max_eq_left before

theorem nodup_meetingUses : (l.meetingUses row col location).Nodup := by
  have inputs := nodup_temporaryInputs l.loop
  refine nodup_flatMap_of_key id Prod.fst ?_ (fun e _ => nodup_steadyUses _ _)
    fun e _ x hx => (mem_steadyUses.mp hx).2.1
  rw [List.map_id]
  exact ((inputs.filter _).product (inputs.filter _)).filter _

/-- Of the inputs of a use two are independents, one is, or none is. -/
theorem Proper.nodup_elementUses (h : l.Proper) : (l.elementUses row col location).Nodup := by
  refine h.nodup_independentUses.append (h.nodup_temporaryUses.append nodup_meetingUses ?_) ?_
  · intro x hx hx'
    obtain ⟨input, temporary, ht, side⟩ := mem_temporaryUses.mp hx
    obtain ⟨-, -, ⟨_, first⟩, ⟨_, second⟩, -⟩ := mem_meetingUses.mp hx'
    rcases side with side | side
    all_goals obtain ⟨-, -, q, -, finds, label, -⟩ := (h.mem_sideUses ht).mp side
    · rw [label, finds.temporaryOf?] at first
      cases first
    · rw [label, finds.temporaryOf?] at second
      cases second
  · intro x hx hx'
    obtain ⟨-, -, ⟨_, first⟩, ⟨_, second⟩, -⟩ := h.mem_independentUses.mp hx
    have hp := temporaryOf?_of_reads first
    have hq := temporaryOf?_of_reads second
    rcases List.mem_append.mp hx' with hx' | hx'
    · obtain ⟨input, temporary, ht, side⟩ := mem_temporaryUses.mp hx'
      rcases side with side | side
      all_goals obtain ⟨-, -, q, -, -, label, -⟩ := (h.mem_sideUses ht).mp side
      · rw [label, ht] at hq
        cases hq
      · rw [label, ht] at hp
        cases hp
    · obtain ⟨-, -, ⟨_, first⟩, -⟩ := mem_meetingUses.mp hx'
      cases hp.symm.trans first

end

/-! ## Uses of all elements -/

/-- The labelled uses of all computed elements. -/
def probedUses (l : LoopStructure F) (layout : Layout) : List PairUse :=
  layout.computed.toList.flatMap fun e => l.elementUses e.1.1 e.1.2 e.2

/-- The labelled uses of all pairs of inputs that meet. -/
def labelledUses (l : LoopStructure F) (layout : Layout) : List PairUse :=
  l.sparsity.toList.flatMap fun e => (l.pairUses layout e).map (e, ·)

section

variable {x : PairUse} {layout : Layout} {elements : List (Nat × Nat)}

theorem mem_labelledUses :
    x ∈ l.labelledUses layout ↔ x.1 ∈ l.sparsity ∧ x.2 ∈ l.pairUses layout x.1 := by
  rw [labelledUses, List.mem_flatMap]
  constructor
  · rintro ⟨e, he, hx⟩
    obtain ⟨u, hu, rfl⟩ := List.mem_map.mp hx
    exact ⟨TreeSet.mem_toList.mp he, hu⟩
  · rintro ⟨meet, hu⟩
    exact ⟨x.1, TreeSet.mem_toList.mpr meet, List.mem_map.mpr ⟨x.2, hu, rfl⟩⟩

theorem map_snd_labelledUses : (l.labelledUses layout).map Prod.snd =
    l.sparsity.toList.flatMap (l.pairUses layout) := by
  simp only [labelledUses, List.map_flatMap, List.map_map]
  exact List.flatMap_congr fun e _ => List.map_id _

theorem Proper.mem_probedUses (h : l.Proper) : x ∈ l.probedUses layout ↔
    ∃ row col location, layout.computed[(row, col)]? = some location ∧
      l.Belongs row col location x := by
  simp only [probedUses, List.mem_flatMap, TreeMap.mem_toList_iff_getElem?_eq_some, Prod.exists,
    h.mem_elementUses]

/-- The elements have the uses that the pairs have, as often. -/
theorem Proper.perm_uses (h : l.Proper) (isOf : layout.IsOf elements) :
    (l.probedUses layout).Perm (l.labelledUses layout) := by
  refine (List.perm_ext_iff_of_nodup ?_ ?_).mpr fun x => ?_
  · -- elements have locations of their own
    refine nodup_flatMap_of_key Prod.snd (fun x => x.2.location) ?_
      (fun e _ => h.nodup_elementUses) fun e _ x hx => ?_
    · refine (nodup_map_fst_toList layout.computed).of_map.map_on fun e he e' he' eq => ?_
      have computed := TreeMap.mem_toList_iff_getElem?_eq_some.mp he
      have computed' := TreeMap.mem_toList_iff_getElem?_eq_some.mp he'
      exact Prod.ext (isOf.computed_inj computed (eq ▸ computed')) eq
    · obtain ⟨-, -, -, -, -, -, -, -, here⟩ := h.mem_elementUses.mp hx
      exact here
  · refine nodup_flatMap_of_key id Prod.fst ?_ (fun e _ => ?_) fun e _ x hx => ?_
    · rw [List.map_id]
      exact nodup_toList l.sparsity
    · exact (nodup_pairUses layout e).map fun _ _ eq => (Prod.mk.inj eq).2
    · obtain ⟨u, -, rfl⟩ := List.mem_map.mp hx
      rfl
  · rw [h.mem_probedUses, mem_labelledUses, mem_pairUses, mem_streamsAt]
    constructor
    · rintro ⟨row, col, location, computed, meet, contributes, hit, chainP, chainQ, hp, hq, same,
        rfl⟩
      exact ⟨meet, contributes, hit, row, chainP, col, chainQ, hp, hq, computed, same.symm⟩
    · rintro ⟨meet, contributes, hit, row, chainP, col, chainQ, hp, hq, computed, same⟩
      exact ⟨row, col, _, computed, meet, contributes, hit, chainP, chainQ, hp, hq, same.symm, rfl⟩

theorem Proper.perm_pairUses (h : l.Proper) (isOf : layout.IsOf elements) :
    ((l.probedUses layout).map Prod.snd).Perm (l.sparsity.toList.flatMap (l.pairUses layout)) :=
  map_snd_labelledUses ▸ (h.perm_uses isOf).map Prod.snd

theorem Proper.compatible_probedUses (h : l.Proper) (isOf : layout.IsOf elements) :
    Compatible l.loop.iterations ((l.probedUses layout).map Prod.snd) := by
  have sub := (h.perm_pairUses isOf).subset
  refine ⟨(oneLocation_pairs fun e k hk => (isOf.lower e k hk).1).mono sub, fun u hu => ?_⟩
  obtain ⟨e, -, hu⟩ := List.mem_flatMap.mp (sub hu)
  exact (mem_pairUses.mp hu).2.1

end

/-! ## Second derivatives of temporaries -/

/-- The uses that second derivatives of temporaries make for an element. -/
def elementSeconds (l : LoopStructure F) (row col location : Nat) : List (Use SecondStream) :=
  (l.curved.filter fun e => e.2.contains (row, col)).flatMap fun e =>
    (List.range l.loop.iterations).map fun it => ⟨⟨e.1, row, col⟩, it, location⟩

/-- The uses of second derivatives by all computed elements. -/
def probedSeconds (l : LoopStructure F) (layout : Layout) : List (Use SecondStream) :=
  layout.computed.toList.flatMap fun e => l.elementSeconds e.1.1 e.1.2 e.2

section

variable {layout : Layout} {elements : List (Nat × Nat)} {u : Use SecondStream}
  {s : HessianStreams} {P : List (Use PairStream)} {S : List (Use SecondStream)}

theorem mem_elementSeconds : u ∈ l.elementSeconds row col location ↔
    (∃ pattern, (u.stream.input, pattern) ∈ l.curved ∧ (row, col) ∈ pattern) ∧
      u.stream.row = row ∧ u.stream.col = col ∧ u.iteration < l.loop.iterations ∧
        u.location = location := by
  rw [elementSeconds, List.mem_flatMap]
  constructor
  · rintro ⟨⟨input, pattern⟩, he, hu⟩
    obtain ⟨mem, there⟩ := List.mem_filter.mp he
    obtain ⟨it, hit, rfl⟩ := List.mem_map.mp hu
    exact ⟨⟨pattern, mem, TreeSet.contains_iff_mem.mp there⟩, rfl, rfl, List.mem_range.mp hit, rfl⟩
  · obtain ⟨⟨input, _, _⟩, it, _⟩ := u
    rintro ⟨⟨pattern, mem, there⟩, rfl, rfl, hit, rfl⟩
    exact ⟨(input, pattern), List.mem_filter.mpr ⟨mem, TreeSet.contains_iff_mem.mpr there⟩,
      List.mem_map.mpr ⟨it, List.mem_range.mpr hit, rfl⟩⟩

theorem placed_elementSeconds (computed : layout.computed[(row, col)]? = some location) :
    Placed layout (l.elementSeconds row col location) := by
  intro u hu
  obtain ⟨-, rfl, rfl, -, rfl⟩ := mem_elementSeconds.mp hu
  exact computed

theorem nodup_elementSeconds (distinct : (l.curved.map Prod.fst).Nodup) :
    (l.elementSeconds row col location).Nodup := by
  refine nodup_flatMap_of_key Prod.fst (fun u => u.stream.input) ?_ (fun e _ => ?_)
    fun e _ u hu => ?_
  · exact (List.filter_sublist.map Prod.fst).nodup distinct
  · exact List.nodup_range.map fun it it' eq => congrArg Use.iteration eq
  · obtain ⟨it, -, rfl⟩ := List.mem_map.mp hu
    rfl

/-- The elements have the second derivatives that the temporaries have. -/
theorem perm_secondUses (distinct : (l.curved.map Prod.fst).Nodup) :
    (l.probedSeconds layout).Perm (l.curved.flatMap (l.secondUses layout)) := by
  refine (List.perm_ext_iff_of_nodup ?_ ?_).mpr fun u => ?_
  · refine nodup_flatMap_of_key Prod.fst (fun u => (u.stream.row, u.stream.col)) ?_
      (fun e _ => nodup_elementSeconds distinct) fun e _ u hu => ?_
    · exact nodup_map_fst_toList layout.computed
    · obtain ⟨-, row, col, -⟩ := mem_elementSeconds.mp hu
      exact Prod.ext row col
  · refine nodup_flatMap_of_key Prod.fst (fun u => u.stream.input) distinct
      (fun e _ => nodup_secondUses layout e) fun e _ u hu => (mem_secondUses.mp hu).1
  · simp only [probedSeconds, List.mem_flatMap, TreeMap.mem_toList_iff_getElem?_eq_some,
      mem_elementSeconds, mem_secondUses, Prod.exists]
    constructor
    · rintro ⟨row, col, location, computed, ⟨pattern, mem, there⟩, rfl, rfl, hit, rfl⟩
      exact ⟨_, pattern, mem, rfl, there, hit, computed⟩
    · rintro ⟨input, pattern, mem, rfl, there, hit, computed⟩
      exact ⟨_, _, _, computed, ⟨pattern, mem, there⟩, rfl, rfl, hit, rfl⟩

theorem yields_claimElementSeconds (h : s.Claimed P S) (pos : 0 < l.loop.iterations)
    (placed : Placed layout S) (computed : layout.computed[(row, col)]? = some location) :
    Yields (l.claimElementSeconds row col location s) () fun s' _ =>
      s'.Claimed P (S ++ l.elementSeconds row col location) := by
  have placed' : Placed layout (S ++ l.elementSeconds row col location) := fun u hu =>
    (List.mem_append.mp hu).elim (placed u) (placed_elementSeconds computed u)
  rw [elementSeconds] at placed' ⊢
  refine Yields.mono (yields_foldlM (fun done (s' : HessianStreams) _ =>
    s'.Claimed P (S ++ done.flatMap fun e =>
      (List.range l.loop.iterations).map fun it => ⟨⟨e.1, row, col⟩, it, location⟩)) ?_ ?_)
    fun _ _ _ h => h
  · rwa [List.flatMap_nil, List.append_nil]
  · rintro done ⟨input, pattern⟩ rest s' _ split - h
    rw [List.flatMap_append, ← List.append_assoc, List.flatMap_singleton]
    refine h.yields_claimSecond pos fun u hu eq => ?_
    have at_ := placed' u (by
      rw [split, List.flatMap_append, ← List.append_assoc]
      exact List.mem_append_left _ hu)
    rw [eq, computed] at at_
    exact (Option.some.inj at_).symm

end

/-! ## Claims of all elements -/

section

variable {layout : Layout} {elements : List (Nat × Nat)}

/-- The elements can claim their streams. -/
theorem Proper.yields_probe (h : l.Proper) (isOf : layout.IsOf elements) :
    Yields (l.probe layout) () fun s _ =>
      s.Claimed ((l.probedUses layout).map Prod.snd) (l.probedSeconds layout) := by
  have pos := h.valid.pos
  have compatible := h.compatible_probedUses isOf
  let uses (e : (Nat × Nat) × Nat) : List PairUse := l.elementUses e.1.1 e.1.2 e.2
  let seconds (e : (Nat × Nat) × Nat) : List (Use SecondStream) := l.elementSeconds e.1.1 e.1.2 e.2
  refine yields_foldlM (fun done (s : HessianStreams) _ =>
    s.Claimed ((done.flatMap uses).map Prod.snd) (done.flatMap seconds)) claimed_empty ?_
  rintro done ⟨⟨row, col⟩, location⟩ rest s _ split - claimed
  have computed {e : (Nat × Nat) × Nat} (he : e ∈ done ++ ((row, col), location) :: rest) :
      layout.computed[e.1]? = some e.2 :=
    TreeMap.mem_toList_iff_getElem?_eq_some.mp (split ▸ he)
  rw [List.flatMap_append, List.flatMap_append, List.flatMap_singleton, List.flatMap_singleton,
    List.map_append]
  refine ((addsUses_claimElementPairs pos).yields claimed (compatible.mono ?_)).bind
    fun s' _ _ claimed' => ?_
  · rw [probedUses, split, ← List.map_append]
    refine List.map_subset _ (List.IsPrefix.subset ⟨rest.flatMap uses, ?_⟩)
    simp [uses]
  · refine yields_claimElementSeconds claimed' pos ?_
      (computed (List.mem_append_right _ (List.mem_cons_self ..)))
    intro u hu
    obtain ⟨e, he, hu⟩ := List.mem_flatMap.mp hu
    exact placed_elementSeconds (computed (List.mem_append_left _ he)) u hu

end

theorem IsOf.proper {m : Model F} {loop : Loop F} {rows : List (TreeMap Nat (Value F))}
    (h : l.IsOf m loop rows) (valid : loop.Valid) (wf : loop.tape.WellFormed) : l.Proper where
  valid := h.loop ▸ valid
  lt meet := h.loop ▸ (wf.meet_lt ((h.sparsity _ _).mp meet)).1
  symm meet := (h.sparsity _ _).mpr ((h.sparsity _ _).mp meet).symm
  dependencies q := by rw [h.dependencies, h.loop, Option.isSome_map]

end LoopStructure

/-! ## The same claims -/

namespace HessianStreams

/-- The same streams are claimed, at the same iterations for the same locations
and as often. -/
structure Same (s s' : HessianStreams) : Prop where
  pairs (stream : PairStream) : stream ∈ s.pairs ↔ stream ∈ s'.pairs
  pairAt (stream : PairStream) (it : Nat) :
    claimAt? s.pairs stream it = claimAt? s'.pairs stream it
  seconds (stream : SecondStream) : stream ∈ s.seconds ↔ stream ∈ s'.seconds
  secondAt (stream : SecondStream) (it : Nat) :
    claimAt? s.seconds stream it = claimAt? s'.seconds stream it
  touched (location : Nat) : location ∈ s.touched ↔ location ∈ s'.touched

/-- Claims count uses, so their order is of no account. -/
theorem Claimed.same {s s' : HessianStreams} {P P' : List (Use PairStream)}
    {S S' : List (Use SecondStream)} (h : s.Claimed P S) (h' : s'.Claimed P' S')
    (pairs : P.Perm P') (seconds : S.Perm S') : s.Same s' where
  pairs stream := by simp only [h.pairs.mem_iff, h'.pairs.mem_iff, pairs.mem_iff]
  pairAt stream it := by
    refine Option.ext fun ⟨location, count⟩ => ?_
    rw [h.pairs.claimAt?_eq_some_iff, h'.pairs.claimAt?_eq_some_iff, pairs.count_eq]
  seconds stream := by simp only [h.seconds.mem_iff, h'.seconds.mem_iff, seconds.mem_iff]
  secondAt stream it := by
    refine Option.ext fun ⟨location, count⟩ => ?_
    rw [h.seconds.claimAt?_eq_some_iff, h'.seconds.claimAt?_eq_some_iff, seconds.count_eq]
  touched location := by simp only [h.touched, h'.touched, pairs.mem_iff, seconds.mem_iff]

end HessianStreams

/-- For every loop of an accepted model and all elements without a repeat, the
pairs of inputs and the elements make the same claims. -/
theorem Model.Accepted.exists_probe {F : Type} [Scalar F] {m : Model F} (accepted : m.Accepted)
    {asm : Assembly F} (model : asm.model = m) {loop : Loop F} (hl : loop ∈ m.loops)
    {elements : List (Nat × Nat)} (nodup : elements.Nodup) (rows : List (TreeMap Nat (Value F))) :
    ∃ layout l streams probed, Layout.ofElements elements = .ok layout ∧
      asm.loopStructure loop rows = .ok l ∧ l.streams layout = .ok streams ∧
        l.probe layout = .ok probed ∧ streams.Same probed := by
  obtain ⟨layout, hlayout, isOf⟩ := exists_ok_of_yields (Layout.yields_ofElements nodup)
  obtain ⟨l, hstructure, structureOf⟩ :=
    exists_ok_of_yields (LoopStructure.yields_loopStructure rows model accepted hl)
  have proper := structureOf.proper (accepted.loop hl) (accepted.loopTape hl)
  obtain ⟨streams, hstreams, claimed⟩ :=
    exists_ok_of_yields (l.yields_streams proper.valid.pos fun e k hk => (isOf.lower e k hk).1)
  obtain ⟨probed, hprobed, claimed'⟩ := exists_ok_of_yields (proper.yields_probe isOf)
  refine ⟨layout, l, streams, probed, hlayout, hstructure, hstreams, hprobed, ?_⟩
  exact claimed.same claimed' (proper.perm_pairUses isOf).symm
    (LoopStructure.perm_secondUses (LoopStructure.nodup_curved hstructure)).symm

end LoopDiff
