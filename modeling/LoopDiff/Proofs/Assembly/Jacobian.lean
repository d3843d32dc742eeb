import LoopDiff.Assembly.Jacobian
import LoopDiff.Proofs.Assembly.Outputs
import LoopDiff.Proofs.Assembly.Temporaries
import LoopDiff.Proofs.Loop.Uses
import LoopDiff.Proofs.Maps
import LoopDiff.Proofs.Model.Dependency

/-!
# LoopDiff.Proofs.Assembly.Jacobian

The graph of a Jacobian computes derivatives.
-/

namespace LoopDiff

open Std (TreeMap TreeSet)

/-! ## Elements -/

theorem Assembly.yields_elementLocations {elements : List (Nat × Nat)} (nodup : elements.Nodup) :
    Yields (elementLocations elements) () fun locations _ =>
      Located locations fun k => elements[k]? := by
  refine Yields.mono (yields_foldlM (fun done (locations : PairMap Nat) _ =>
    ∀ e k, locations[e]? = some k ↔ (e, k) ∈ done) ?_ ?_) ?_
  · simp
  · rintro done ⟨e, k⟩ rest locations _ split - h
    have fresh : ∀ k', (e, k') ∉ done := by
      intro k' mem
      have firsts := congrArg (List.map Prod.fst) split
      rw [List.zipIdx_map_fst, List.map_append, List.map_cons] at firsts
      rw [firsts] at nodup
      exact (List.nodup_append.mp nodup).2.2 e (List.mem_map_of_mem (f := Prod.fst) mem) e
        (List.mem_cons_self ..) rfl
    have absent : locations.contains e = false := by
      by_contra present
      rw [Bool.not_eq_false, TreeMap.contains_iff_mem] at present
      exact fresh _ ((h e _).mp (TreeMap.getElem?_eq_some_getElem present))
    simp only [absent, Bool.false_eq_true, if_false]
    refine yields_ok rfl fun e' k' => ?_
    rw [TreeMap.getElem?_insert, List.mem_append, List.mem_singleton, ← h]
    split
    case isTrue eq =>
        cases Std.LawfulEqOrd.eq_of_compare eq
        rw [Prod.mk.injEq, h, Option.some.injEq]
        exact ⟨fun eq => .inr ⟨rfl, eq.symm⟩, fun mem => mem.elim (fun mem => absurd mem (fresh _))
          fun eq => eq.2.symm⟩
    case isFalse ne =>
        refine (or_iff_left fun eq => ne ?_).symm
        rw [(Prod.mk.inj eq).1]
        exact Std.ReflCmp.compare_self
  · rintro locations _ - h e k
    rw [h, List.mem_zipIdx_iff_getElem?]

/-- What has locations is repeated nowhere. -/
theorem Assembly.nodup_of_elementLocations {elements : List (Nat × Nat)} {locations : PairMap Nat}
    (h : elementLocations elements = .ok locations) : elements.Nodup := by
  suffices distinct : ∀ (es : List ((Nat × Nat) × Nat)) (before : PairMap Nat),
      es.foldlM (fun (locations : PairMap Nat) e =>
        if locations.contains e.1 then refuse (.invalidModel (.repeatedElement e.1.1 e.1.2))
        else .ok (locations.insert e.1 e.2)) before = (.ok locations : Except Failure _) →
      (es.map Prod.fst).Nodup ∧ ∀ e ∈ es, e.1 ∉ before by
    have nodup := (distinct _ _ h).1
    rwa [List.zipIdx_map_fst] at nodup
  intro es
  induction es with
  | nil => exact fun _ _ => ⟨List.nodup_nil, by simp⟩
  | cons e es ih =>
      intro before h
      rw [List.foldlM_cons] at h
      by_cases repeated : before.contains e.1 = true
      · simp only [repeated, if_true] at h
        cases h
      · simp only [repeated] at h
        obtain ⟨nodup, apart⟩ := ih _ h
        simp only [TreeMap.mem_insert, Std.compare_eq_iff_eq, not_or] at apart
        refine ⟨List.nodup_cons.mpr ⟨fun mem => ?_, nodup⟩, List.forall_mem_cons.mpr
          ⟨fun mem => repeated (TreeMap.contains_iff_mem.mpr mem), fun e' he' => (apart e' he').2⟩⟩
        obtain ⟨e', he', eq⟩ := List.mem_map.mp mem
        exact (apart e' he').1 eq.symm

namespace Assembly

variable {F R : Type} {l : Loop F} {rows : List (TreeMap Nat (Value F))}

/-! ## Streams -/

/-- The stream by which a candidate contributes, if it does. -/
def wanted? (l : Loop F) (rows : List (TreeMap Nat (Value F))) (c : Candidate) :
    Option JacobianStream :=
  match l.temporaryOf? c.input with
  | some t => if (rows.getD t ∅).contains c.independent
      then some ⟨c.equation, c.input, some c.independent⟩ else none
  | none => if l.independentAt? c.input c.iteration = some c.independent
      then some ⟨c.equation, c.input, none⟩ else none

/-- The use of a stream that a candidate makes. -/
def use? (l : Loop F) (rows : List (TreeMap Nat (Value F))) (c : Candidate) :
    Option (Use JacobianStream) :=
  (wanted? l rows c).map fun stream => ⟨stream, c.iteration, c.location⟩

theorem wanted?_eq_some {c : Candidate} {s : JacobianStream} : wanted? l rows c = some s ↔
    (∃ t, l.temporaryOf? c.input = some t ∧ (rows.getD t ∅).contains c.independent ∧
      s = ⟨c.equation, c.input, some c.independent⟩) ∨
    l.temporaryOf? c.input = none ∧ l.independentAt? c.input c.iteration = some c.independent ∧
      s = ⟨c.equation, c.input, none⟩ := by
  rw [wanted?]
  cases l.temporaryOf? c.input with
  | some t => simp [eq_comm (b := s)]
  | none => simp [eq_comm (b := s)]

/-- The stream of a candidate is for its equation and its input, and has a
chain only behind a temporary. -/
theorem of_wanted? {c : Candidate} {s : JacobianStream} (h : wanted? l rows c = some s) :
    s.equation = c.equation ∧ s.input = c.input ∧
      ∀ j, s.chain = some j → ∃ t, l.temporaryOf? c.input = some t := by
  rcases wanted?_eq_some.mp h with ⟨t, ht, -, rfl⟩ | ⟨-, -, rfl⟩
  · exact ⟨rfl, rfl, fun _ _ => ⟨t, ht⟩⟩
  · exact ⟨rfl, rfl, fun _ hj => by cases hj⟩

theorem of_mem_uses {candidates : List Candidate} {u : Use JacobianStream}
    (h : u ∈ candidates.filterMap (use? l rows)) : ∃ c ∈ candidates, ∃ s,
      wanted? l rows c = some s ∧ ⟨s, c.iteration, c.location⟩ = u := by
  obtain ⟨c, hc, hu⟩ := List.mem_filterMap.mp h
  obtain ⟨s, hs, eq⟩ := Option.map_eq_some_iff.mp hu
  exact ⟨c, hc, s, hs, eq⟩

theorem streamOf?_eq (valid : l.Valid) {c : Candidate} (hq : c.input < l.tape.inputCount)
    (hit : c.iteration < l.iterations) : streamOf? l rows c = .ok (wanted? l rows c) := by
  rw [streamOf?, wanted?]
  cases ht : l.temporaryOf? c.input with
  | some t => rfl
  | none =>
      obtain ⟨j, hj, -⟩ := valid.exists_independent hq hit ht
      rw [Loop.independentOf, hj]
      rfl

/-- A loop claims its streams as its candidates use them. -/
theorem yields_jacobianStreams (valid : l.Valid) {candidates : List Candidate}
    (inside : ∀ c ∈ candidates, c.input < l.tape.inputCount ∧ c.iteration < l.iterations)
    (free : ∀ u ∈ candidates.filterMap (use? l rows), ∀ u' ∈ candidates.filterMap (use? l rows),
      u.stream = u'.stream → u.iteration = u'.iteration → u.location = u'.location) :
    Yields (jacobianStreams l rows candidates) () fun p _ =>
      Collected (candidates.filterMap (use? l rows)) p.1 ∧
        ∀ k, k ∈ p.2 ↔ ∃ u ∈ candidates.filterMap (use? l rows), u.location = k := by
  rw [jacobianStreams]
  refine Yields.mono (yields_foldlM (fun (done : List Candidate)
    (p : TreeMap JacobianStream Claims × IndexSet) _ =>
      Collected (done.filterMap (use? l rows)) p.1 ∧
        ∀ k, k ∈ p.2 ↔ ∃ u ∈ done.filterMap (use? l rows), u.location = k) ?_ ?_)
      fun _ _ _ h => h
  · exact ⟨.empty, by simp⟩
  · rintro done c rest ⟨streams, touched⟩ _ split - ⟨h, locations⟩
    have mem : c ∈ candidates := by simp [split]
    simp only
    rw [bind_of_ok (streamOf?_eq valid (inside c mem).1 (inside c mem).2), List.filterMap_append]
    cases hs : wanted? l rows c with
    | none =>
        have unused : [c].filterMap (use? l rows) = [] := by simp [use?, hs]
        rw [unused, List.append_nil]
        exact yields_pure ⟨h, locations⟩
    | some stream =>
        have used : [c].filterMap (use? l rows) = [⟨stream, c.iteration, c.location⟩] := by
          simp [use?, hs]
        have uses : candidates.filterMap (use? l rows) = done.filterMap (use? l rows) ++
            ⟨stream, c.iteration, c.location⟩ :: rest.filterMap (use? l rows) := by
          rw [split, List.filterMap_append, ← List.singleton_append, List.filterMap_append, used,
            List.singleton_append]
        rw [used]
        refine Yields.bind (h.yields_add fun u hu => free u ?_ ⟨stream, c.iteration, c.location⟩ ?_)
          fun claims _ _ h' => ?_
        · exact uses ▸ List.mem_append_left _ hu
        · exact uses ▸ List.mem_append_right _ (List.mem_cons_self ..)
        · refine yields_pure ⟨h', fun k => ?_⟩
          rw [TreeSet.mem_insert, locations, Std.compare_eq_iff_eq]
          simp [or_and_right, exists_or, or_comm]

/-! ## Candidates -/

variable {locations : PairMap Nat} {element? : Nat → Option (Nat × Nat)}
  {sparsity : List IndexSet} {c : Candidate}

theorem mem_candidates : c ∈ candidates l sparsity locations ↔
    ∃ row : Nat, locations[(row, c.independent)]? = some c.location ∧
      l.positions[row]? = some ⟨c.equation, c.iteration⟩ ∧
      c.input ∈ sparsity.getD c.equation ∅ := by
  rw [candidates, List.mem_flatMap]
  constructor
  · rintro ⟨⟨⟨row, col⟩, k⟩, he, hc⟩
    have he := TreeMap.mem_toList_iff_getElem?_eq_some.mp he
    cases hp : l.positions[row]? with
    | none => simp [hp] at hc
    | some p =>
        simp only [hp, List.mem_map, TreeSet.mem_toList] at hc
        obtain ⟨q, hq, rfl⟩ := hc
        exact ⟨row, he, hp, hq⟩
  · rintro ⟨row, he, hp, hq⟩
    refine ⟨((row, c.independent), c.location), TreeMap.mem_toList_iff_getElem?_eq_some.mpr he, ?_⟩
    simp only [hp, List.mem_map, TreeSet.mem_toList]
    exact ⟨c.input, hq, rfl⟩

variable (wf : l.tape.WellFormed) (valid : l.Valid) (located : Located locations element?)
  (depends : List.Forall₂ (fun o (row : IndexSet) => ∀ j, j ∈ row ↔ l.tape.DependsOn o j)
    l.tape.outputs sparsity)

include wf valid depends in
theorem inside_of_mem_candidates (h : c ∈ candidates l sparsity locations) :
    c.equation < l.tape.outputCount ∧ c.input < l.tape.inputCount ∧ c.iteration < l.iterations := by
  obtain ⟨row, -, hp, hq⟩ := mem_candidates.mp h
  obtain ⟨r, hr, hd⟩ := valid.getElem?_positions.mp hp
  obtain ⟨lt, reaches⟩ := (Tape.mem_row_iff depends).mp hq
  refine ⟨lt, wf.dependsOn_lt reaches, ?_⟩
  rw [← valid.size_eq (List.mem_append_left _ (List.mem_of_getElem? hr))]
  exact (Array.getElem?_eq_some_iff.mp hd).1

include valid in
/-- A stream goes to one location at an iteration. -/
theorem location_eq {u u' : Use JacobianStream}
    (h : u ∈ (candidates l sparsity locations).filterMap (use? l rows))
    (h' : u' ∈ (candidates l sparsity locations).filterMap (use? l rows))
    (stream : u.stream = u'.stream) (iteration : u.iteration = u'.iteration) :
    u.location = u'.location := by
  obtain ⟨c, hc, s, hs, rfl⟩ := of_mem_uses h
  obtain ⟨c', hc', s', hs', rfl⟩ := of_mem_uses h'
  obtain rfl : s = s' := stream
  have at_ : c.iteration = c'.iteration := iteration
  have same : c.equation = c'.equation ∧ c.independent = c'.independent := by
    rcases wanted?_eq_some.mp hs with ⟨t, -, -, rfl⟩ | ⟨-, hj, rfl⟩ <;>
      rcases wanted?_eq_some.mp hs' with ⟨t', -, -, eq⟩ | ⟨-, hj', eq⟩ <;>
      obtain ⟨equation, input, chain⟩ := JacobianStream.mk.inj eq
    · exact ⟨equation, Option.some.inj chain⟩
    · cases chain
    · cases chain
    · rw [← input, ← at_] at hj'
      exact ⟨equation, Option.some.inj (hj.symm.trans hj')⟩
  obtain ⟨row, hk, hp, -⟩ := mem_candidates.mp hc
  obtain ⟨row', hk', hp', -⟩ := mem_candidates.mp hc'
  obtain ⟨r, hr, hd⟩ := valid.getElem?_positions.mp hp
  obtain ⟨r', hr', hd'⟩ := valid.getElem?_positions.mp hp'
  cases hr.symm.trans (same.1 ▸ hr')
  cases hd.symm.trans (at_ ▸ hd')
  exact Option.some.inj (hk.symm.trans (same.2 ▸ hk'))

/-! ## Derivatives of equations -/

variable [Scalar F] [Elementary R] [Reading F R] {inputs : List (Array F)} {m : Model F}
  {x : Nat → R} {a : Arena F} {k : Nat}

/-- What a stream of a loop stands for. -/
def streamAt (m : Model F) (l : Loop F) (x : Nat → R) (s : JacobianStream) (it : Nat) : R :=
  l.tape.partialAt (m.inputAt l x it) s.input (l.tape.outputAt s.equation) *
    s.chain.elim 1 fun j => m.inputPartial l x it j s.input

/-- What a candidate contributes, if anything, is its term of the chain
rule. -/
theorem amount_use? (temporaries : ∀ t ∈ l.temporaries, t < Model.temporaryCount m.outer?)
    (partials : (l.temporaryOf? c.input).isSome → Partials rows a inputs m x) :
    (use? l rows c).elim 0 (Use.amount (streamAt m l x) k) = sentTo k (c.location,
      m.inputPartial l x c.iteration c.independent c.input *
        l.tape.partialAt (m.inputAt l x c.iteration) c.input (l.tape.outputAt c.equation)) := by
  have term {s : JacobianStream} (hs : wanted? l rows c = some s)
      (chain : s.chain.elim 1 (fun j => m.inputPartial l x c.iteration j s.input) =
        m.inputPartial l x c.iteration c.independent c.input)
      (equation : s.equation = c.equation) (input : s.input = c.input) :
      (use? l rows c).elim 0 (Use.amount (streamAt m l x) k) = sentTo k (c.location,
        m.inputPartial l x c.iteration c.independent c.input *
          l.tape.partialAt (m.inputAt l x c.iteration) c.input (l.tape.outputAt c.equation)) := by
    rw [use?, hs, Option.map_some, Option.elim_some, Use.amount, streamAt, chain, equation, input,
      mul_comm]
  cases hs : wanted? l rows c with
  | some s =>
      rcases wanted?_eq_some.mp hs with ⟨t, -, -, rfl⟩ | ⟨ht, hj, rfl⟩
      · exact term hs rfl rfl rfl
      · refine term hs ?_ rfl rfl
        rw [Model.inputPartial_eq, ht]
        exact (if_pos hj).symm
  | none =>
      have zero : m.inputPartial l x c.iteration c.independent c.input = 0 := by
        rw [wanted?] at hs
        rw [Model.inputPartial_eq]
        cases ht : l.temporaryOf? c.input with
        | some t =>
            simp only [ht] at hs ⊢
            refine (partials (by rw [ht]; rfl)).zero
              (temporaries t (Loop.mem_of_temporaryOf? ht)) ?_
            exact TreeMap.getElem?_eq_none (by simpa using hs)
        | none =>
            simp only [ht] at hs ⊢
            exact if_neg fun hj => by simp [hj] at hs
      rw [use?, hs, Option.map_none, Option.elim_none, zero, zero_mul, sentTo]
      exact (ite_self _).symm

include wf valid located depends in
/-- What is used for an element adds up to its derivative. -/
theorem sum_uses (temporaries : ∀ t ∈ l.temporaries, t < Model.temporaryCount m.outer?)
    (partials : ∀ c ∈ candidates l sparsity locations, (l.temporaryOf? c.input).isSome →
      Partials rows a inputs m x) :
    (((candidates l sparsity locations).filterMap (use? l rows)).map
      (Use.amount (streamAt m l x) k)).sum =
        (element? k).elim 0 fun e => (l.positions[e.1]?).elim 0 fun p =>
          (m.equationAt l (seeded x e.2) p.equation p.iteration).eps := by
  rw [sum_map_filterMap, List.map_congr_left fun c hc => amount_use? temporaries (partials c hc),
    ← located.sum, candidates, sum_map_flatMap]
  refine congrArg List.sum (List.map_congr_left ?_)
  rintro ⟨⟨row, col⟩, k'⟩ -
  dsimp only
  cases hp : l.positions[row]? with
  | none =>
      rw [Option.elim_none, sentTo]
      exact (ite_self _).symm
  | some p =>
      obtain ⟨r, hr, -⟩ := valid.getElem?_positions.mp hp
      have lt : p.equation < l.tape.outputCount :=
        valid.outputs ▸ (List.getElem?_eq_some_iff.mp hr).1
      simp only [List.map_map, Function.comp_def]
      rw [Option.elim_some, sum_sentTo_map, m.eps_equationAt wf, sum_toList]
      · exact fun q hq => wf.dependsOn_lt ((Tape.mem_row_iff depends).mp hq).2
      · intro q hq
        rw [wf.partialAt_eq_zero, mul_zero]
        exact fun reaches => hq ((Tape.mem_row_iff depends).mpr ⟨lt, reaches⟩)

/-! ## The body of a loop -/

omit [Scalar F] in
theorem neededInputs_eq (streams : List JacobianStream) : neededInputs l streams =
    (addPairs (Array.replicate l.dependents.length ∅)
      (streams.map fun s => (s.equation, s.input))).toList := by
  rw [neededInputs, addPairs, List.foldl_map]

omit [Scalar F] in
theorem length_neededInputs (streams : List JacobianStream) :
    (neededInputs l streams).length = l.dependents.length := by
  rw [neededInputs_eq, Array.length_toList, size_addPairs, Array.size_replicate]

omit [Scalar F] in
/-- The inputs by which an equation is differentiated are those of its
streams. -/
theorem mem_neededInputs {streams : List JacobianStream} {e q : Nat} :
    q ∈ (neededInputs l streams).getD e ∅ ↔
      e < l.dependents.length ∧ ∃ s ∈ streams, s.equation = e ∧ s.input = q := by
  rw [neededInputs_eq, mem_addPairs_replicate, and_comm]
  simp

/-- The value of a stream in the body of its loop. -/
theorem yields_jacobianStreamValue {n : Nat} {entries : PairMap (Value F)} {s : JacobianStream}
    (pos : 0 < n) (hv : ∀ it < n, a.Means inputs (some it)
      (entries.getD (s.equation, s.input) (.const Scalar.zero))
      (l.tape.partialAt (m.inputAt l x it) s.input (l.tape.outputAt s.equation)))
    (temporaries : ∀ t ∈ l.temporaries, t < Model.temporaryCount m.outer?)
    (chain : ∀ j, s.chain = some j → Partials rows a inputs m x ∧
      ∃ t, l.temporaryOf? s.input = some t) :
    Yields (jacobianStreamValue l rows entries s) a fun v a' => ∀ it < n,
      a'.Means inputs (some it) v (streamAt m l x s it) := by
  exact yields_chained pos hv temporaries chain

/-! ## The assembly -/

variable {asm : Assembly F} {Y : Nat → Nat → Dual R} {size : Nat}

theorem elim_positions (valid : l.Valid) (hl : l ∈ m.loops)
    (computes : ∀ j, m.Computes (seeded x j) (Y j)) (e : Nat × Nat) :
    ((l.positions[e.1]?).elim 0 fun p =>
      (m.equationAt l (seeded x e.2) p.equation p.iteration).eps) =
        if e.1 ∈ l.dependents.flatMap Array.toList then (Y e.2 e.1).eps else 0 := by
  cases hp : l.positions[e.1]? with
  | none => rw [if_neg (valid.positions_eq_none.mp hp), Option.elim_none]
  | some p =>
      obtain ⟨row, hrow, hd⟩ := valid.getElem?_positions.mp hp
      rw [if_pos, Option.elim_some, (computes e.2).loop hl _ row hrow _ _ hd]
      exact List.mem_flatMap.mpr
        ⟨row, List.mem_of_getElem? hrow, Array.mem_toList_iff.mpr (Array.mem_of_getElem? hd)⟩

section

variable (ready : asm.Ready a inputs m x) (accepted : m.Accepted) (fits : m.Fits size)
  (hl : l ∈ m.loops)

include ready accepted fits hl

/-- The loop for some streams. -/
theorem Ready.ends_jacobianBody [PowerRule R]
    (exponents : m.Exponents (Exponent.Lowers 1))
    {outputs : Outputs F} {z gain : Nat → R} (tiered : a.Tiered) (h : outputs.Hold a inputs size z)
    {uses : List (Use JacobianStream)} {streams : TreeMap JacobianStream Claims}
    {touched : IndexSet} (collected : Collected uses streams)
    (inside : ∀ u ∈ uses, u.stream.equation < l.tape.outputCount ∧
      u.stream.input < l.tape.inputCount ∧ u.iteration < l.iterations ∧ u.location < size)
    (chain : ∀ u ∈ uses, ∀ j, u.stream.chain = some j →
      Partials rows a inputs m x ∧ ∃ t, l.temporaryOf? u.stream.input = some t)
    (locations : ∀ k, k ∈ touched ↔ ∃ u ∈ uses, u.location = k)
    (sum : ∀ k, (uses.map (Use.amount (streamAt m l x) k)).sum = gain k) :
    Ends (asm.jacobianBody outputs l rows streams touched) a fun outputs' a' =>
        a.Keeps Arena.LoopKind a' ∧ outputs'.Hold a' inputs size fun k => z k + gain k := by
  have valid := accepted.loop hl
  have wf := accepted.loopTape hl
  have small : l.iterations ≤ openEnd := by
    have := fits.iterations hl
    rw [openEnd]
    omega
  have used {s : JacobianStream} (hs : s ∈ streams.keys) : ∃ u ∈ uses, u.stream = s :=
    collected.used (TreeMap.getElem?_eq_some_getElem (TreeMap.mem_keys.mp hs))
  rw [jacobianBody]
  refine Worlds.Ends.bind
    (LoopScope.yields_begin (R := R) (.numbers inputs) true l.id valid.pos small tiered.owned) ?_
  rintro s a₁ ⟨le₁, body⟩
  refine Worlds.Ends.bind ((ready.extend le₁).yields_loopInputs accepted fits hl body) ?_
  rintro us a₂ ⟨le₂, length, hu⟩
  refine Worlds.Ends.bind (Yields.allBelow valid.pos fun it hit => wf.yields_jacobianEntries
    (Interpretation.recorded R inputs (some it))
    ((exponents.2 l hl).mono (Interpretation.takes_recorded inputs (some it)).dual) length
    (hu it hit) ?_ ?_) ?_
  · rw [length_neededInputs, valid.outputs]
  · intro row hrow q hq
    obtain ⟨e, he⟩ := List.mem_iff_getElem?.mp hrow
    obtain ⟨-, s, hs, -, rfl⟩ := mem_neededInputs.mp (exists_mem_row.mp ⟨row, he, hq⟩)
    obtain ⟨u, hu, rfl⟩ := used hs
    exact (inside u hu).2.1
  rintro entries a₃ ⟨le₃, means⟩
  have le := (le₁.trans le₂).trans le₃
  refine Worlds.Ends.bind ((body.extend (le₂.trans le₃)).ends_contributeUses collected
    (fun u hu => (inside u hu).2.2) (fits.room hl) (r := streamAt m l x) ?_) ?_
  · intro u hu key a' keeps
    have asked := exists_mem_row.mpr
      (mem_neededInputs.mpr ⟨valid.outputs ▸ (inside u hu).1, u.stream, key, rfl, rfl⟩)
    refine yields_jacobianStreamValue valid.pos (fun it hit => ?_)
      (accepted.valid.temporaries_lt hl) fun j hj => ?_
    · have value := Interpretation.meansMap.getD _ (means it hit)
        (e := (u.stream.equation, u.stream.input)) fun absent => absurd asked absent
      exact Arena.Means.keep value
        (fun _ _ tier => .inr (Kind.not_appendable_of_tier tier)) keeps
    · obtain ⟨partials, ht⟩ := chain u hu j hj
      exact ⟨partials.extend (Arena.le_of_behind le keeps fun i k lt => .inl lt), ht⟩
  rintro s' a₄ ⟨keeps, c, body', sent⟩
  have le' := Arena.le_of_behind le keeps fun i k lt => .inl lt
  have sends (k : Nat) : LoopDiff.sent l.iterations c.streams k = gain k := by
    rw [sent, Content.streams_empty, sent_nil, zero_add, sum]
  refine (body'.ends_closeTouched (Arena.Keeps.tiered le' tiered) (h.extend le') sends
    ?_ ?_).mono ?_
  · intro k hk
    obtain ⟨u, hu, rfl⟩ := (locations k).mp hk
    exact (inside u hu).2.2.2
  · intro k hk
    rw [← sum]
    exact Collected.sum_amount_eq_zero (fun u hu eq => hk ((locations k).mpr ⟨u, hu, eq⟩)) _
  · rintro outputs' a' ⟨keeps', h'⟩
    exact ⟨(Arena.keeps_of_le le').trans keeps', h'⟩

/-- A loop adds the derivatives of its dependents to the outputs. -/
theorem Ready.ends_jacobianLoop [PowerRule R]
    (exponents : m.Exponents (Exponent.Lowers 1))
    (computes : ∀ j, m.Computes (seeded x j) (Y j)) (located : Located locations element?)
    (bounded : ∀ k e, element? k = some e → k < size)
    {outputs : Outputs F} {z : Nat → R} (tiered : a.Tiered) (h : outputs.Hold a inputs size z) :
    Ends (asm.jacobianLoop locations outputs l) a fun outputs' a' => a.Keeps Arena.LoopKind a' ∧
      outputs'.Hold a' inputs size fun k => z k + (element? k).elim 0 fun e =>
        if e.1 ∈ l.dependents.flatMap Array.toList then (Y e.2 e.1).eps else 0 := by
  have valid := accepted.loop hl
  have wf := accepted.loopTape hl
  have temporaries := accepted.valid.temporaries_lt hl
  obtain ⟨sparsity, hs, depends⟩ := exists_ok_of_yields wf.yields_jacobianSparsity
  rw [jacobianLoop]
  refine Recording.ends_lift_bind hs ?_
  refine Worlds.Ends.bind (ready.yields_neededJacobian accepted exponents _) ?_
  rintro rows a₁ ⟨le₁, partials⟩
  obtain ⟨⟨streams, touched⟩, hstreams, collected, locs⟩ := exists_ok_of_yields
    (yields_jacobianStreams valid (fun c hc => (inside_of_mem_candidates wf valid depends hc).2)
      fun u hu u' hu' => location_eq valid hu hu')
  refine Recording.ends_lift_bind hstreams ?_
  have partials {c : Candidate} (hc : c ∈ candidates l sparsity locations)
      (ht : (l.temporaryOf? c.input).isSome) : Partials rows a₁ inputs m x :=
    partials (List.any_eq_true.mpr ⟨c, hc, ht⟩)
  have sum (k : Nat) : (((candidates l sparsity locations).filterMap (use? l rows)).map
      (Use.amount (streamAt m l x) k)).sum = (element? k).elim 0 fun e =>
        if e.1 ∈ l.dependents.flatMap Array.toList then (Y e.2 e.1).eps else 0 := by
    rw [sum_uses wf valid located depends temporaries fun c => partials]
    simp only [elim_positions valid hl computes]
  have inside (u : Use JacobianStream)
      (hu : u ∈ (candidates l sparsity locations).filterMap (use? l rows)) :
      u.stream.equation < l.tape.outputCount ∧ u.stream.input < l.tape.inputCount ∧
        u.iteration < l.iterations ∧ u.location < size := by
    obtain ⟨c, hc, s, hs, rfl⟩ := of_mem_uses hu
    obtain ⟨equation, input, -⟩ := of_wanted? hs
    obtain ⟨row, hk, -⟩ := mem_candidates.mp hc
    obtain ⟨he, hq, hit⟩ := inside_of_mem_candidates wf valid depends hc
    exact ⟨equation ▸ he, input ▸ hq, hit, bounded _ _ ((located _ _).mp hk)⟩
  simp only
  split
  case isTrue empty =>
      refine ends_pure ⟨Arena.keeps_of_le le₁, (h.extend le₁).congr fun k _ => ?_⟩
      rw [← sum, collected.sum_amount_of_isEmpty empty (fun u hu => (inside u hu).2.2.1), add_zero]
  case isFalse =>
      refine ((ready.extend le₁).ends_jacobianBody accepted fits hl exponents
        (Arena.Keeps.tiered le₁ tiered) (h.extend le₁) collected inside ?_ locs sum).mono ?_
      · intro u hu j hj
        obtain ⟨c, hc, s, hs, rfl⟩ := of_mem_uses hu
        obtain ⟨t, ht⟩ := (of_wanted? hs).2.2 j hj
        obtain ⟨-, input, -⟩ := of_wanted? hs
        exact ⟨partials hc (by rw [ht]; rfl), t, input ▸ ht⟩
      · rintro outputs' a' ⟨keeps, h'⟩
        exact ⟨(Arena.keeps_of_le le₁).trans keeps, h'⟩

end

/-! ## The outer part -/

omit [Scalar F] in
theorem outerRows_eq (o : Outer F) (sparsity : List IndexSet) (requested : List (Nat × Nat)) :
    outerRows o sparsity requested = (addPairs (Array.replicate sparsity.length ∅)
      (requested.filterMap fun (row, col) => (o.equations[row]?).bind fun i =>
        if (sparsity.getD i ∅).contains col then some (i, col) else none)).toList := by
  rw [outerRows, addPairs, List.foldl_filterMap, List.size_toArray]
  congr 2
  funext rows e
  obtain ⟨row, col⟩ := e
  have same (i : Nat) : sparsity.toArray.getD i ∅ = sparsity.getD i ∅ := by
    simp [Array.getD_eq_getD_getElem?]
  simp only [same]
  cases o.equations[row]? with
  | none => rfl
  | some i =>
      simp only [Option.bind_some]
      by_cases mem : (sparsity.getD i ∅).contains col = true
      · rw [if_pos mem, if_pos mem]
      · rw [if_neg mem, if_neg mem]

omit [Scalar F] in
/-- The elements that are asked of an output of the outer tape. -/
theorem mem_outerRows {o : Outer F} (valid : o.Valid) {sparsity : List IndexSet}
    {requested : List (Nat × Nat)} {i j : Nat} :
    j ∈ (outerRows o sparsity requested).getD i ∅ ↔
      j ∈ sparsity.getD i ∅ ∧ ∃ d, o.dependents[i]? = some d ∧ (d, j) ∈ requested := by
  have inside (h : j ∈ sparsity.getD i ∅) : i < sparsity.length := by
    obtain ⟨row, hrow, -⟩ := exists_mem_row.mpr h
    exact (List.getElem?_eq_some_iff.mp hrow).1
  rw [outerRows_eq, mem_addPairs_replicate, List.mem_filterMap]
  constructor
  · rintro ⟨⟨⟨row, col⟩, hr, h⟩, -⟩
    obtain ⟨i', hi, h⟩ := Option.bind_eq_some_iff.mp h
    obtain ⟨mem, eq⟩ := Option.ite_none_right_eq_some.mp h
    cases eq
    exact ⟨TreeSet.contains_iff_mem.mp mem, row, valid.getElem?_equations.mp hi, hr⟩
  · rintro ⟨mem, d, hd, hr⟩
    refine ⟨⟨(d, j), hr, Option.bind_eq_some_iff.mpr ⟨i, valid.getElem?_equations.mpr hd, ?_⟩⟩,
      inside mem⟩
    rw [if_pos (TreeSet.contains_iff_mem.mpr mem)]

/-- The entries of the outer tape that are elements, with their
locations. -/
def kept (o : Outer F) (locations : PairMap Nat) (entries : PairMap (Value F)) :
    List (Nat × Value F) :=
  entries.toList.filterMap fun ((i, j), v) =>
    ((o.dependents[i]?).bind fun d => locations[(d, j)]?).map fun k => (k, v)

omit [Scalar F] in
theorem mem_kept {o : Outer F} {entries : PairMap (Value F)} {v : Value F} :
    (k, v) ∈ kept o locations entries ↔ ∃ (i j d : Nat), o.dependents[i]? = some d ∧
      locations[(d, j)]? = some k ∧ entries[(i, j)]? = some v := by
  rw [kept, List.mem_filterMap]
  constructor
  · rintro ⟨⟨⟨i, j⟩, v'⟩, he, h⟩
    obtain ⟨k', hk', eq⟩ := Option.map_eq_some_iff.mp h
    cases eq
    obtain ⟨d, hd, hk⟩ := Option.bind_eq_some_iff.mp hk'
    exact ⟨i, j, d, hd, hk, TreeMap.mem_toList_iff_getElem?_eq_some.mp he⟩
  · rintro ⟨i, j, d, hd, hk, hv⟩
    refine ⟨((i, j), v), TreeMap.mem_toList_iff_getElem?_eq_some.mpr hv, ?_⟩
    simp only [hd, Option.bind_some, hk, Option.map_some]

omit [Scalar F] in
theorem setEntries_eq (o : Outer F) (entries : PairMap (Value F)) (outputs : Outputs F) :
    entries.toList.foldl (fun outputs e =>
      match (o.dependents.toArray[e.1.1]?).bind fun d => locations[(d, e.1.2)]? with
      | some k => outputs.setIfInBounds k e.2
      | none => outputs) outputs =
    (kept o locations entries).foldl (fun outputs (k, v) => outputs.setIfInBounds k v) outputs := by
  rw [kept, List.foldl_filterMap]
  congr 1
  funext outputs ⟨⟨i, j⟩, v⟩
  simp only [List.getElem?_toArray]
  cases (o.dependents[i]?).bind fun d => locations[(d, j)]? <;> rfl

/-- An element that is not asked of the outer tape is zero there. -/
theorem eq_zero_of_not_asked (accepted : m.Accepted)
    (computes : ∀ j, m.Computes (seeded x j) (Y j)) {o : Outer F} (ho : m.outer? = some o)
    {e : Nat × Nat} (free : ∀ i, o.dependents[i]? = some e.1 →
      ¬o.tape.DependsOn (o.tape.outputAt i) e.2) :
    (if e.1 ∈ o.dependents then (Y e.2 e.1).eps else 0) = 0 := by
  refine ite_eq_right_iff.mpr fun mem => ?_
  obtain ⟨i, hi⟩ := List.mem_iff_getElem?.mp mem
  rw [(computes e.2).outer ho i _ hi]
  exact (accepted.outerTape ho).partialAt_eq_zero x (free i hi)

/-- The elements of the outer dependents are set. -/
theorem Ready.yields_outerJacobian [PowerRule R] (ready : asm.Ready a inputs m x)
    (accepted : m.Accepted) (exponents : m.Exponents (Exponent.Lowers 1))
    (computes : ∀ j, m.Computes (seeded x j) (Y j)) (located : Located locations element?) :
    Yields (asm.outerJacobian locations (Outputs.zeros size)) a fun outputs a' =>
      outputs.Hold a' inputs size fun k => (element? k).elim 0 fun e =>
        if e.1 ∈ Model.computed m.outer? [] then (Y e.2 e.1).eps else 0 := by
  rw [outerJacobian, ready.model]
  cases ho : m.outer? with
  | none =>
      rw [Model.computed_nil, Option.elim_none]
      refine yields_pure ((Outputs.hold_zeros size).congr fun k _ => ?_)
      cases element? k <;> simp
  | some o =>
      have wf := accepted.outerTape ho
      have valid := accepted.outer ho
      obtain ⟨sparsity, hs, depends⟩ := exists_ok_of_yields wf.yields_jacobianSparsity
      refine Recording.ends_lift_bind hs ?_
      have zero {k : Nat} (free : ∀ i d j, o.dependents[i]? = some d → locations[(d, j)]? = some k →
          j ∉ (outerRows o sparsity locations.keys).getD i ∅) :
          0 = (element? k).elim 0 fun e => if e.1 ∈ o.dependents then (Y e.2 e.1).eps else 0 := by
        cases hk : element? k with
        | none => rfl
        | some e =>
            rw [Option.elim_some, eq_zero_of_not_asked accepted computes ho]
            intro i hi reaches
            have he := (located e k).mpr hk
            refine free i e.1 e.2 hi he ((mem_outerRows valid).mpr ⟨?_, e.1, hi, ?_⟩)
            · refine (Tape.mem_row_iff depends).mpr ⟨?_, reaches⟩
              rw [← valid.outputs]
              exact Nat.lt_add_right _ (List.getElem?_eq_some_iff.mp hi).1
            · exact TreeMap.mem_keys.mpr (TreeMap.mem_iff_isSome_getElem?.mpr (by rw [he]; rfl))
      rw [Model.computed_nil, Option.elim_some]
      dsimp only
      split
      case isTrue none =>
          refine yields_pure ((Outputs.hold_zeros size).congr fun k _ => zero fun i d j _ _ mem => ?_)
          obtain ⟨row, hrow, hj⟩ := exists_mem_row.mpr mem
          have empty := List.all_eq_true.mp none row (List.mem_of_getElem? hrow)
          exact TreeSet.isEmpty_iff_forall_not_mem.mp empty j hj
      case isFalse =>
          refine Yields.bind (Yields.all fun it => wf.yields_jacobianEntries
            (Interpretation.recorded R inputs it)
            ((exponents.1 o ho).mono (Interpretation.takes_recorded inputs it).dual) ?_
              (ready.independents.means it) ?_ ?_) fun E a₁ le means => ?_
          · rw [Array.length_toList, ready.independents.size_eq, accepted.valid.outerInputs ho]
          · rw [outerRows_eq, Array.length_toList, size_addPairs, Array.size_replicate]
            exact depends.length_eq.symm
          · intro row hrow j hj
            obtain ⟨i, hi⟩ := List.mem_iff_getElem?.mp hrow
            have mem := ((mem_outerRows valid).mp (exists_mem_row.mp ⟨row, hi, hj⟩)).1
            exact wf.dependsOn_lt ((Tape.mem_row_iff depends).mp mem).2
          · have hold : Outputs.Hold ((kept o locations E).foldl (fun outputs (k, v) =>
                outputs.setIfInBounds k v) (Outputs.zeros size)) a₁ inputs size fun k =>
                  (element? k).elim 0 fun e => if e.1 ∈ o.dependents then (Y e.2 e.1).eps else 0 := by
              refine (Outputs.hold_zeros size).setAll ?_ fun k free =>
                zero fun i d j hd hk mem => free ?_
              · rintro ⟨k, v⟩ mem
                obtain ⟨i, j, d, hd, hk, hv⟩ := mem_kept.mp mem
                have value : (Y j d).eps = o.tape.partialAt x j (o.tape.outputAt i) := by
                  rw [(computes j).outer ho i d hd]
                  rfl
                simp only [(located _ _).mp hk, Option.elim_some]
                rw [if_pos (List.mem_of_getElem? hd), value]
                exact .plain ((means none).2 (i, j) v hv)
              · have found := ((means none).1 (i, j)).mpr (exists_mem_row.mpr mem)
                have hv := TreeMap.getElem?_eq_some_getElem found
                exact List.mem_map.mpr ⟨(k, _), mem_kept.mpr ⟨i, j, d, hd, hk, hv⟩, rfl⟩
            rw [← setEntries_eq] at hold
            exact yields_pure hold

/-- Where no elements are asked for, nothing is differentiated. -/
theorem Ready.ends_jacobian_nil (ready : asm.Ready a inputs m x) (accepted : m.Accepted) :
    Ends (asm.jacobian []) a fun outputs _ => outputs = [] := by
  have outer : Ends (asm.outerJacobian ∅ #[]) a fun outputs _ => outputs = #[] := by
    rw [outerJacobian, ready.model]
    cases ho : m.outer? with
    | none => exact ends_pure rfl
    | some o =>
        obtain ⟨sparsity, hs, -⟩ :=
          exists_ok_of_yields (accepted.outerTape ho).yields_jacobianSparsity
        have unasked : (outerRows o sparsity (∅ : PairMap Nat).keys).all
            (fun row => row.isEmpty) = true := by
          refine List.all_eq_true.mpr fun row mem => TreeSet.isEmpty_iff_forall_not_mem.mpr ?_
          intro j hj
          obtain ⟨i, hi⟩ := List.mem_iff_getElem?.mp mem
          obtain ⟨-, d, -, asked⟩ :=
            (mem_outerRows (accepted.outer ho)).mp (exists_mem_row.mp ⟨row, hi, hj⟩)
          simp at asked
        refine Recording.ends_lift_bind hs ?_
        simp only [unasked, if_true]
        exact ends_pure rfl
  have loop (a' : Arena F) {l : Loop F} (hl : l ∈ m.loops) :
      Ends (asm.jacobianLoop ∅ #[] l) a' fun outputs _ => outputs = #[] := by
    obtain ⟨sparsity, hs, -⟩ :=
      exists_ok_of_yields (accepted.loopTape hl).yields_jacobianSparsity
    rw [jacobianLoop]
    refine Recording.ends_lift_bind hs ?_
    exact ends_pure rfl
  rw [jacobian]
  refine Recording.ends_lift_bind (x := ∅) rfl ?_
  refine Worlds.Ends.bind outer ?_
  rintro _ a₁ rfl
  rw [ready.model]
  refine Worlds.Ends.bind (P := fun outputs _ => outputs = #[]) (Worlds.Ends.mono
    (ends_foldlM (fun _ (outputs : Outputs F) _ => outputs = #[]) rfl ?_) fun _ _ h => h) ?_
  · rintro done l rest _ a' split rfl
    exact loop a' (by simp [split])
  · rintro _ a' rfl
    exact ends_pure rfl

/-- The outputs of the graph of the Jacobian hold the derivatives. -/
theorem Ready.ends_jacobian [PowerRule R] (ready : asm.Ready a inputs m x) (accepted : m.Accepted)
    {elements : List (Nat × Nat)} (exponents : elements ≠ [] → m.Exponents (Exponent.Lowers 1))
    (fits : m.Fits elements.length) (computes : ∀ j, m.Computes (seeded x j) (Y j))
    (nodup : elements.Nodup) (rows : ∀ e ∈ elements, e.1 < m.range) (tiered : a.Tiered) :
    Ends (asm.jacobian elements) a fun outputs a' =>
      Outputs.Hold outputs.toArray a' inputs elements.length fun k =>
        (elements[k]?).elim 0 fun e => (Y e.2 e.1).eps := by
  by_cases empty : elements = []
  · subst empty
    refine (ready.ends_jacobian_nil accepted).mono ?_
    rintro _ a' rfl
    exact (Outputs.hold_zeros 0).congr fun _ _ => rfl
  have exponents := exponents empty
  obtain ⟨locations, hlocations, located⟩ :=
    exists_ok_of_yields (yields_elementLocations nodup)
  rw [jacobian]
  refine Recording.ends_lift_bind hlocations ?_
  refine Worlds.Ends.bind (ready.yields_outerJacobian accepted exponents computes located) ?_
  rintro outputs a₁ ⟨le₁, h₁⟩
  rw [ready.model]
  refine Worlds.Ends.bind (P := fun outputs a' => outputs.Hold a' inputs elements.length fun k =>
    (elements[k]?).elim 0 fun e => (Y e.2 e.1).eps) ?_ fun outputs a' h => ends_pure h
  refine Worlds.Ends.mono (ends_foldlM (fun done (outputs : Outputs F) a' =>
    a₁.Keeps Arena.LoopKind a' ∧ outputs.Hold a' inputs elements.length fun k =>
      (elements[k]?).elim 0 fun e => if e.1 ∈ Model.computed m.outer? done then (Y e.2 e.1).eps else 0)
    ⟨.refl _ _, h₁⟩ ?_) ?_
  · rintro done l rest outputs a' split ⟨keeps, h⟩
    have hl : l ∈ m.loops := by simp [split]
    refine (((ready.extend le₁).keep Arena.loopKind_of_tier_zero keeps).ends_jacobianLoop accepted
      fits hl exponents computes located (fun k e hk => (List.getElem?_eq_some_iff.mp hk).1)
      (keeps.tiered (Arena.Keeps.tiered le₁ tiered)) h).mono ?_
    rintro outputs' a'' ⟨keeps', h'⟩
    refine ⟨keeps.trans keeps', h'.congr fun k _ => ?_⟩
    cases elements[k]? with
    | none => exact add_zero _
    | some e => exact accepted.valid.sum_computed split e.1 _
  · rintro outputs a' ⟨-, h⟩
    refine h.congr fun k lt => ?_
    rw [List.getElem?_eq_getElem lt, Option.elim_some, Option.elim_some, if_pos]
    exact accepted.valid.covers.mem_iff.mpr (List.mem_range.mpr (rows _ (List.getElem_mem lt)))

end Assembly

/-! ## Evaluation -/

namespace Model

variable {F R : Type} [Scalar F] [Elementary R] [Reading F R] {m : Model F}

/-- The numbers `vs` are read as the derivatives at the requested elements,
at the numbers `xs`. -/
def ReadsAsDerivatives (m : Model F) (R : Type) [Elementary R] [Reading F R]
    (elements : List (Nat × Nat)) (xs vs : List F) : Prop :=
  ∃ Y : Nat → Nat → Dual R,
    (∀ j, m.Computes (seeded (fun j => embed (xs.getD j Scalar.zero)) j) (Y j)) ∧
    vs.length = elements.length ∧ ∀ (k : Nat) (v : F) (e : Nat × Nat),
      vs[k]? = some v → elements[k]? = some e → embed v = (Y e.2 e.1).eps

/-- The graph of the Jacobian, on any numbers, gives the derivatives. -/
theorem Accepted.assemble_jacobian [PowerRule R] (accepted : m.Accepted)
    {elements : List (Nat × Nat)} (exponents : elements ≠ [] → m.Exponents (Exponent.Lowers 1))
    (fits : m.Fits elements.length) (nodup : elements.Nodup)
    (rows : ∀ e ∈ elements, e.1 < m.range) :
    ∃ c : Compiled F, m.assemble false (fun asm => asm.jacobian elements) = .ok c ∧
      c.outputs.length = elements.length ∧ ∀ xs : List F, xs.length = m.domain →
        ∃ vs, c.Gives [xs] vs ∧ m.ReadsAsDerivatives R elements xs vs := by
  let numbers (xs : {xs : List F // xs.length = m.domain}) : List (List F) := [xs.1]
  let Reads (xs : {xs : List F // xs.length = m.domain}) (y : Nat → R) : Prop :=
    ∃ Y : Nat → Nat → Dual R,
      (∀ j, m.Computes (seeded (fun j => embed (xs.1.getD j Scalar.zero)) j) (Y j)) ∧
        ∀ k e, elements[k]? = some e → y k = (Y e.2 e.1).eps
  have ends (xs : {xs : List F // xs.length = m.domain}) :
      Ends (Assembly.begin m false >>= fun asm => asm.jacobian elements) (Arena.empty 1) fun vs a =>
        vs.length = elements.length ∧ ∃ y : Nat → R, Reads xs y ∧
          ∀ (k : Nat) (v : Value F), vs[k]? = some v → ∃ x,
            Problem.output? ⟨a, (numbers xs).map List.toArray⟩ v = some x ∧ embed x = y k := by
    choose Y computes using fun j => m.exists_computes accepted.valid
      (seeded (fun j => (embed (xs.1.getD j Scalar.zero) : R)) j)
    have supplies : Supplies [xs.1.toArray] independentsArray m.domain
        fun j => (embed (xs.1.getD j Scalar.zero) : R) := supplies_of_list rfl xs.2
    refine Worlds.Ends.bind (Assembly.yields_begin fits supplies) ?_
    rintro asm a ⟨le, ready⟩
    refine (ready.ends_jacobian accepted exponents fits computes nodup rows
      (Arena.Keeps.tiered le (tiered_empty 1))).mono fun outputs a' h => ?_
    refine ⟨by simpa using h.size_eq, fun k => (elements[k]?).elim 0 fun e => (Y e.2 e.1).eps,
      ⟨Y, computes, fun k e he => ?_⟩, fun k v hv => (h.holds (by simpa using hv)).value⟩
    simp only [he, Option.elim_some]
  obtain ⟨c, assembled, length, h⟩ := assemble_of_forall numbers ends
  refine ⟨c, assembled, length, fun xs len => ?_⟩
  obtain ⟨y, ⟨Y, computes, eq⟩, vs, gives, count, values⟩ := h ⟨xs, len⟩
  exact ⟨vs, gives, Y, computes, count, fun k v e hv he => (values k v hv).trans (eq k e he)⟩

end Model

end LoopDiff
