import LoopDiff.Proofs.Assembly.Amounts
import LoopDiff.Proofs.Assembly.Outputs
import LoopDiff.Proofs.Assembly.Temporaries

/-!
# LoopDiff.Proofs.Assembly.Hessian

The graph of a weighted Hessian can always be recorded and evaluated.

Every stream of a loop stands for a number at every iteration, a second
derivative of the loop tape with its chains (`Assembly.pairAt`) or a first
derivative times a second derivative of a temporary (`Assembly.secondAt`).
The claims of the streams do not conflict, and so the loop can be closed and
adds to each output what its streams send there.  At the end every output
is a value, an accumulation or a synonym of one (`Arena.Shows`), and has a
number.
-/

namespace LoopDiff

open Std (TreeMap TreeSet)
open LoopStructure

variable {F R : Type} [Scalar F] [Elementary R] [Reading F R] {inputs : List (Array F)}

namespace Assembly

variable {asm : Assembly F} {a a' : Arena F} {m : Model F} {l : Loop F} {x ω : Nat → R}
  {rows : List (TreeMap Nat (Value F))} {size : Nat}

/-! ## Weights -/

theorem Weighted.extend (h : asm.Weighted a inputs m ω) (le : a ≤ a') :
    asm.Weighted a' inputs m ω :=
  h.keep (fun _ _ _ => trivial) le

theorem Weighted.keep {P : Nat → Kind → Prop} (h : asm.Weighted a inputs m ω)
    (low : ∀ i k, k.tier = 0 → P i k) (keeps : a.Keeps P a') : asm.Weighted a' inputs m ω :=
  Arena.Inputs.keep h low keeps

/-- The weights of the equations of a loop, in its body. -/
theorem Weighted.yields_loopWeights {k base : Nat} {add : Bool} {s : LoopScope} {c : Content R}
    (weighted : asm.Weighted a inputs m ω) (accepted : m.Accepted) (fits : m.Fits k)
    (hl : l ∈ m.loops) (body : s.Body a (.numbers inputs) l.iterations base add c) :
    Yields (loopWeights l s) a fun ws a' => ws.length = l.tape.outputCount ∧
      ∀ it < l.iterations,
        (Interpretation.recorded R inputs (some it)).meansAll a' ws.toArray (l.weightAt ω it) := by
  have valid := accepted.loop hl
  have evals := evals_of_detected valid.dependentPatterns
    (fun row hrow => valid.size_eq (List.mem_append_left _ hrow)) (fits.iterations hl)
    (fun row hrow j hj => accepted.valid.dependents_lt hl hrow hj) accepted.valid.range_lt
  rw [loopWeights]
  refine (yields_mapM (P := fun p v a' => ∀ it < l.iterations, ∀ d, d < m.range →
    p.eval it = some d → a'.Means inputs (some it) v (ω d)) ?_ ?_).mono fun ws a' _ hw => ?_
  · exact fun p v a₁ a₂ le h it hit d hd eval => (h it hit d hd eval).extend le
  · intro p _ a' le
    refine ((body.extend le).yields_read weightsArray p).mono fun v a'' _ h it hit d hd eval => ?_
    obtain ⟨y, hy, eq⟩ := (weighted.extend le).supplies.input hd
    exact eq ▸ h it hit d y eval hy
  · refine ⟨?_, fun it hit e v hv => ?_⟩
    · rw [← valid.outputs, ← hw.length_eq, evals.length_eq]
    · rw [List.getElem?_toArray] at hv
      obtain ⟨p, hp, means⟩ := exists_left_of_forall₂ hw hv
      obtain ⟨row, hrow, eval⟩ := exists_left_of_forall₂ evals hp
      obtain ⟨d, hd, lt, at_⟩ := eval it hit
      rw [Loop.weightAt, hrow, Option.bind_some, hd]
      exact means it hit d lt at_

/-! ## Values of streams -/

/-- The value of a pair stream in the body of its loop. -/
theorem yields_pairStreamValue {n : Nat} {entries : PairMap (Value F)} {s : PairStream}
    (pos : 0 < n) (hv : ∀ it < n, a.Means inputs (some it)
      (entries.getD (s.hi, s.lo) (.const Scalar.zero))
      (m.loopSecond l x ω it s.hi s.lo))
    (temporaries : ∀ t ∈ l.temporaries, t < Model.temporaryCount m.outer?)
    (partials : l.temporaries ≠ [] → Partials rows a inputs m x)
    (hi : Side l s.hi s.chainHi) (lo : Side l s.lo s.chainLo) :
    Yields (pairStreamValue l rows entries s) a fun v a' => ∀ it < n,
      a'.Means inputs (some it) v (pairAt m l x ω s it) := by
  have behind {input : Nat} {chain : Option Nat} (side : Side l input chain) (j : Nat)
      (hj : chain = some j) : Partials rows a inputs m x ∧ ∃ t, l.temporaryOf? input = some t := by
    obtain ⟨t, ht⟩ := side.2 j hj
    exact ⟨partials (List.ne_nil_of_mem (Loop.mem_of_temporaryOf? ht)), t, ht⟩
  rw [pairStreamValue]
  refine Yields.bind (yields_chained pos hv temporaries (behind hi)) fun v a₁ le h => ?_
  exact yields_chained pos h temporaries fun j hj =>
    ⟨(behind lo j hj).1.extend le, (behind lo j hj).2⟩

/-- The value of a stream with a second derivative of a temporary. -/
theorem yields_secondStreamValue {n : Nat} {second : TreeMap Nat (PairMap (Value F))}
    {gradient : Array (Value F)} {s : SecondStream} {k : Nat} (pos : 0 < n)
    (hg : ∀ it < n, a.Means inputs (some it) (gradient.getD s.input (.const Scalar.zero))
      (m.loopPartial l x ω it s.input))
    (ht : l.temporaryOf? s.input = some k)
    (hd : ∀ it, a.Means inputs it ((second.getD k ∅).getD (s.row, s.col) (.const Scalar.zero))
      (m.temporarySecond x s.row s.col k)) :
    Yields (secondStreamValue l second gradient s) a fun v a' => ∀ it < n,
      a'.Means inputs (some it) v (secondAt m l x ω s it) := by
  simp only [secondStreamValue, ht, product]
  refine Yields.allBelow pos fun it hit => Recording.yields_reporting
    ((Value.yields_binary .mul (hg it hit) (hd (some it))).mono fun v a' _ h => ?_)
  rw [secondAt, Model.inputSecond_eq, ht]
  exact h

/-- The second derivatives behind some streams. -/
theorem Ready.yields_secondDerivatives [PowerRule R] (ready : asm.Ready a inputs m x)
    (accepted : m.Accepted) (exponents : m.Exponents (Exponent.Lowers 2))
    (hl : l ∈ m.loops) {streams : List SecondStream} {requested : List (Nat × Nat)}
    (curved : ∀ s ∈ streams, ∃ o k, m.outer? = some o ∧ l.temporaryOf? s.input = some k ∧
      o.tape.Meet [o.tape.outputAt (o.temporaryOutput k)] s.row s.col)
    (asked : ∀ s ∈ streams, (s.row, s.col) ∈ requested) :
    Yields (asm.secondDerivatives l streams requested) a fun second a' =>
      ∀ s ∈ streams, ∀ k, l.temporaryOf? s.input = some k → ∀ it, a'.Means inputs it
        ((second.getD k ∅).getD (s.row, s.col) (.const Scalar.zero))
        (m.temporarySecond x s.row s.col k) := by
  rw [secondDerivatives]
  refine Yields.mono (yields_foldlM (fun done (second : TreeMap Nat (PairMap (Value F))) a' =>
    ∀ s ∈ streams, ∀ k ∈ done, l.temporaryOf? s.input = some k → ∀ it, a'.Means inputs it
      ((second.getD k ∅).getD (s.row, s.col) (.const Scalar.zero))
      (m.temporarySecond x s.row s.col k)) ?_ ?_) ?_
  · exact fun s _ k mem => absurd mem List.not_mem_nil
  · intro done k rest second a' split le h
    have mem : k ∈ streams.filterMap fun s => l.temporaryOf? s.input := by
      have : k ∈ (TreeSet.ofList (streams.filterMap fun s => l.temporaryOf? s.input) :
          IndexSet).toList := by simp [split]
      simpa using this
    obtain ⟨s, hs, ht⟩ := List.mem_filterMap.mp mem
    obtain ⟨o, k', ho, ht', -⟩ := curved s hs
    cases ht.symm.trans ht'
    refine Yields.bind ((ready.extend le).yields_temporaryHessian accepted exponents ho
      (accepted.temporary_lt hl ho ht) requested) fun E a'' le' means => ?_
    refine yields_pure fun s' hs' k' hk' ht' it => ?_
    rw [TreeMap.getD_insert]
    split
    case isTrue eq =>
        cases Std.LawfulEqOrd.eq_of_compare eq
        obtain ⟨o', k', ho', ht'', meet⟩ := curved s' hs'
        cases ho.symm.trans ho'
        cases ht'.symm.trans ht''
        rw [Model.temporarySecond, ho]
        exact Interpretation.meansMap.getD _ (means it) (e := (s'.row, s'.col))
          fun absent => absurd ⟨asked s' hs', meet⟩ absent
    case isFalse ne =>
        refine (h s' hs' k' ((List.mem_append.mp hk').resolve_right fun mem => ne ?_) ht' it).extend le'
        rw [List.mem_singleton.mp mem]
        exact Std.ReflCmp.compare_self
  · intro second a' _ h s hs k ht it
    refine h s hs k ?_ ht it
    simp only [TreeSet.mem_toList, TreeSet.mem_ofList, List.contains_iff_mem, List.mem_filterMap]
    exact ⟨s, hs, ht⟩

/-! ## The body of a loop -/

/-- The uses of pair streams are of inputs, at iterations, for locations. -/
def PairsInside (l : Loop F) (size : Nat) (P : List (Use PairStream)) : Prop :=
  ∀ u ∈ P, Side l u.stream.hi u.stream.chainHi ∧ Side l u.stream.lo u.stream.chainLo ∧
    u.iteration < l.iterations ∧ u.location < size

/-- The uses of second derivatives of temporaries are at iterations, for
locations, and of second derivatives that are requested and can be
nonzero. -/
def SecondsInside (m : Model F) (l : Loop F) (size : Nat) (requested : List (Nat × Nat))
    (S : List (Use SecondStream)) : Prop :=
  ∀ u ∈ S, (u.iteration < l.iterations ∧ u.location < size) ∧
    (u.stream.row, u.stream.col) ∈ requested ∧ ∃ o k, m.outer? = some o ∧
      l.temporaryOf? u.stream.input = some k ∧
        o.tape.Meet [o.tape.outputAt (o.temporaryOutput k)] u.stream.row u.stream.col

/-- Derivatives in a loop body for some streams. -/
structure Derivatives (d : BodyDerivatives F) (a : Arena F) (inputs : List (Array F)) (m : Model F)
    (l : Loop F) (x ω : Nat → R) (streams : HessianStreams) : Prop where
  entry {s : PairStream} : s ∈ streams.pairs.keys → ∀ it < l.iterations,
    a.Means inputs (some it) (d.entries.getD (s.hi, s.lo) (.const Scalar.zero))
      (m.loopSecond l x ω it s.hi s.lo)
  gradient {s : SecondStream} : s ∈ streams.seconds.keys → ∀ it < l.iterations,
    a.Means inputs (some it) (d.gradient.getD s.input (.const Scalar.zero))
      (m.loopPartial l x ω it s.input)
  second {s : SecondStream} : s ∈ streams.seconds.keys → ∀ k, l.temporaryOf? s.input = some k →
    ∀ it, a.Means inputs it ((d.second.getD k ∅).getD (s.row, s.col) (.const Scalar.zero))
      (m.temporarySecond x s.row s.col k)

theorem Derivatives.keep {P : Nat → Kind → Prop} {d : BodyDerivatives F} {streams : HessianStreams}
    (h : Derivatives d a inputs m l x ω streams) (low : ∀ i k, k.tier = 0 → P i k)
    (keeps : a.Keeps P a') : Derivatives d a' inputs m l x ω streams :=
  ⟨fun hs it hit => (h.entry hs it hit).keep low keeps,
    fun hs it hit => (h.gradient hs it hit).keep low keeps,
    fun hs k ht it => (h.second hs k ht it).keep low keeps⟩

section

variable (ready : asm.Ready a inputs m x) (weighted : asm.Weighted a inputs m ω)
  (accepted : m.Accepted) (fits : m.Fits size) (hl : l ∈ m.loops)
  (exponents : m.Exponents (Exponent.Lowers 2))

include ready weighted accepted fits hl exponents

variable {streams : HessianStreams} {P : List (Use PairStream)} {S : List (Use SecondStream)}
  {requested : List (Nat × Nat)} (claimed : streams.Claimed P S) (pairs : PairsInside l size P)
  (seconds : SecondsInside m l size requested S)

include claimed pairs seconds

theorem Ready.yields_bodyDerivatives [PowerRule R] {s : LoopScope} {base : Nat} {add : Bool}
    {c : Content R} (body : s.Body a (.numbers inputs) l.iterations base add c) :
    Yields (asm.bodyDerivatives l s streams requested) a fun d a' =>
      Derivatives d a' inputs m l x ω streams := by
  have valid := accepted.loop hl
  have wf := accepted.loopTape hl
  have twice (it : Nat) := (exponents.2 l hl).mono
    (Interpretation.takes_recorded (R := R) inputs (some it)).dual.dual
  have usedPair {s : PairStream} (hs : s ∈ streams.pairs.keys) : ∃ u ∈ P, u.stream = s :=
    claimed.pairs.used (TreeMap.getElem?_eq_some_getElem (TreeMap.mem_keys.mp hs))
  have usedSecond {s : SecondStream} (hs : s ∈ streams.seconds.keys) : ∃ u ∈ S, u.stream = s :=
    claimed.seconds.used (TreeMap.getElem?_eq_some_getElem (TreeMap.mem_keys.mp hs))
  rw [bodyDerivatives]
  refine Yields.bind (ready.yields_loopInputs accepted fits hl body) fun us a₁ le₁ ⟨length, hu⟩ => ?_
  refine Yields.bind ((weighted.extend le₁).yields_loopWeights accepted fits hl (body.extend le₁))
    fun ws a₂ le₂ ⟨length', hw⟩ => ?_
  have hu {it : Nat} (hit : it < l.iterations) := (hu it hit).later _ le₂
  refine Yields.bind (Yields.allBelow valid.pos fun it hit => wf.yields_hessianEntries
    (Interpretation.recorded R inputs (some it)) (twice it) length (hu hit) length' (hw it hit) ?_)
    fun entries a₃ le₃ he => ?_
  · intro e mem
    obtain ⟨s, hs, rfl⟩ : ∃ s ∈ streams.pairs.keys, (s.hi, s.lo) = e := by simpa using mem
    obtain ⟨u, hu, rfl⟩ := usedPair hs
    exact ⟨(pairs u hu).1.1, (pairs u hu).2.1.1⟩
  refine Yields.bind (P := fun (gradient : List (Value F)) (a' : Arena F) =>
    ∀ s ∈ streams.seconds.keys, ∀ it < l.iterations,
    a'.Means inputs (some it) (gradient.toArray.getD s.input (.const Scalar.zero))
      (m.loopPartial l x ω it s.input)) ?_ fun gradient a₄ le₄ hg => ?_
  · rw [neededGradient]
    split
    case isTrue =>
        refine (Yields.allBelow valid.pos fun it hit => wf.yields_gradient
          (Interpretation.recorded R inputs (some it)) ((twice it).mono fun n h => h.1) length
          ((hu hit).later _ le₃) length' ((hw it hit).later _ le₃)).mono fun gradient a' _ h => ?_
        intro s hs it hit
        obtain ⟨u, hu, rfl⟩ := usedSecond hs
        obtain ⟨-, -, o, k, ho, ht, -⟩ := seconds u hu
        have lt : u.stream.input < gradient.toArray.size := by
          rw [List.size_toArray, (h 0 valid.pos).1]
          exact valid.temporaryInput_lt ht
        rw [Array.getD_eq_getD_getElem?, Array.getElem?_eq_getElem lt, Option.getD_some]
        exact (h it hit).2 _ _ (Array.getElem?_eq_getElem lt)
    case isFalse none =>
        refine yields_pure fun s hs => ?_
        have empty : streams.seconds.isEmpty = true := by simpa using none
        exact absurd (TreeMap.mem_keys.mp hs) (TreeMap.isEmpty_iff_forall_not_mem.mp empty s)
  refine Yields.bind (Ready.yields_secondDerivatives
    (ready.extend (((le₁.trans le₂).trans le₃).trans le₄)) accepted exponents hl ?_ ?_)
    fun second a₅ le₅ hd => ?_
  · intro s hs
    obtain ⟨u, hu, rfl⟩ := usedSecond hs
    exact (seconds u hu).2.2
  · intro s hs
    obtain ⟨u, hu, rfl⟩ := usedSecond hs
    exact (seconds u hu).2.1
  · refine yields_pure ⟨fun {s} hs it hit => ?_, fun hs it hit => ?_, fun hs k ht it => ?_⟩
    · refine Arena.Means.extend ?_ (le₄.trans le₅)
      refine Interpretation.meansMap.getD _ (he it hit) (e := (s.hi, s.lo)) fun absent =>
        absurd ?_ absent
      simpa using ⟨s, TreeMap.mem_keys.mp hs, rfl, rfl⟩
    · exact (hg _ hs it hit).extend le₅
    · exact hd _ hs k ht it

/-- A loop with some streams adds to the outputs what their uses send. -/
theorem Ready.ends_hessianBody [PowerRule R] {outputs : Outputs F} {z : Nat → R}
    (tiered : a.Tiered) (h : outputs.Hold a inputs size z)
    (partials : l.temporaries ≠ [] → Partials rows a inputs m x) :
    Ends (asm.hessianBody outputs l rows streams requested) a fun outputs' a' =>
      a.Keeps Arena.LoopKind a' ∧ outputs'.Hold a' inputs size fun k =>
        z k + ((P.map (Use.amount (pairAt m l x ω) k)).sum +
          (S.map (Use.amount (secondAt m l x ω) k)).sum) := by
  have valid := accepted.loop hl
  have small : l.iterations ≤ openEnd := by
    have := fits.iterations hl
    rw [openEnd]
    omega
  have low (base i : Nat) (k : Kind) (tier : k.tier = 0) : LoopScope.Inside base i k :=
    .inr (Kind.not_appendable_of_tier tier)
  rw [hessianBody]
  refine Worlds.Ends.bind
    (LoopScope.yields_begin (R := R) (.numbers inputs) true l.id valid.pos small tiered.owned) ?_
  rintro s a₁ ⟨le₁, body⟩
  refine Worlds.Ends.bind ((ready.extend le₁).yields_bodyDerivatives (weighted.extend le₁) accepted
    fits hl exponents claimed pairs seconds body) ?_
  rintro d a₂ ⟨le₂, derivatives⟩
  have le := le₁.trans le₂
  refine Worlds.Ends.bind ((body.extend le₂).ends_contributeUses claimed.pairs
    (fun u hu => (pairs u hu).2.2) (fits.room hl) (r := pairAt m l x ω) ?_) ?_
  · intro u hu key a' keeps
    refine yields_pairStreamValue valid.pos
      (fun it hit => (derivatives.entry key it hit).keep (low _) keeps)
      (accepted.valid.temporaries_lt hl) (fun some => ?_) (pairs u hu).1 (pairs u hu).2.1
    exact (partials some).extend (Arena.le_of_behind le keeps fun i k lt => .inl lt)
  rintro s₃ a₃ ⟨keeps₃, c₃, body₃, sent₃⟩
  refine Worlds.Ends.bind (body₃.ends_contributeUses claimed.seconds
    (fun u hu => (seconds u hu).1) (fits.room hl) (r := secondAt m l x ω) ?_) ?_
  · intro u hu key a' keeps
    obtain ⟨-, -, o, k, ho, ht, -⟩ := seconds u hu
    have derivatives := derivatives.keep (low _) (keeps₃.trans keeps)
    exact yields_secondStreamValue valid.pos (fun it hit => derivatives.gradient key it hit) ht
      (derivatives.second key k ht)
  rintro s₄ a₄ ⟨keeps₄, c₄, body₄, sent₄⟩
  have le' := Arena.le_of_behind le (keeps₃.trans keeps₄) fun i k lt => .inl lt
  have sends (k : Nat) : LoopDiff.sent l.iterations c₄.streams k =
      (P.map (Use.amount (pairAt m l x ω) k)).sum +
        (S.map (Use.amount (secondAt m l x ω) k)).sum := by
    rw [sent₄, sent₃, Content.streams_empty, sent_nil, zero_add]
  refine (body₄.ends_closeTouched (Arena.Keeps.tiered le' tiered) (h.extend le') sends
    (fun k hk => ?_) fun k hk => ?_).mono ?_
  · rcases (claimed.touched k).mp hk with ⟨u, hu, rfl⟩ | ⟨u, hu, rfl⟩
    · exact (pairs u hu).2.2.2
    · exact (seconds u hu).1.2
  · rw [Collected.sum_amount_eq_zero, Collected.sum_amount_eq_zero, add_zero]
    · exact fun u hu eq => hk ((claimed.touched k).mpr (.inr ⟨u, hu, eq⟩))
    · exact fun u hu eq => hk ((claimed.touched k).mpr (.inl ⟨u, hu, eq⟩))
  · rintro outputs' a' ⟨keeps', h'⟩
    exact ⟨(Arena.keeps_of_le le').trans keeps', h'⟩

end

/-! ## Loops -/

/-- The derivatives that are not found are zero, if there are any. -/
theorem zeroOutside_of_partials (accepted : m.Accepted) (hl : l ∈ m.loops)
    (partials : l.temporaries ≠ [] → Partials rows a inputs m x) :
    LoopStructure.ZeroOutside m l x rows := by
  intro q t j ht free
  have mem := Loop.mem_of_temporaryOf? ht
  exact (partials (List.ne_nil_of_mem mem)).zero (accepted.valid.temporaries_lt hl t mem) free

section

variable {elements : List (Nat × Nat)} {layout : Layout} {Y : Nat → Nat → Nat → Dual (Dual R)}

/-- The outputs hold the second derivatives of some dependents at the elements
that are computed. -/
def Curved (layout : Layout) (ω : Nat → R) (Y : Nat → Nat → Nat → Dual (Dual R)) (ds : List Nat)
    (z : Nat → R) : Prop :=
  ∀ (r c k : Nat), layout.computed[(r, c)]? = some k → z k = Model.curvature ω (Y r c) ds

variable (ready : asm.Ready a inputs m x) (weighted : asm.Weighted a inputs m ω)
  (accepted : m.Accepted) (fits : m.Fits elements.length) (hl : l ∈ m.loops)
  (exponents : m.Exponents (Exponent.Lowers 2)) (layoutOf : layout.IsOf elements)
  (computes : ∀ r c, m.Computes (seededTwice x r c) (Y r c))

include ready weighted accepted fits hl exponents layoutOf computes

/-- A loop adds a number to every output: the second derivative of its
dependents, if no temporary meets a shadowed input. -/
theorem Ready.ends_hessianLoop [PowerRule R] {outputs : Outputs F} {z : Nat → R}
    (tiered : a.Tiered) (h : outputs.Hold a inputs elements.length z) :
    Ends (asm.hessianLoop layout outputs l) a fun outputs' a' => a.Keeps Arena.LoopKind a' ∧
      ∃ gain : Nat → R, outputs'.Hold a' inputs elements.length (fun k => z k + gain k) ∧
        (l.Unshadowed → Curved layout ω Y (l.dependents.flatMap Array.toList) gain) := by
  have valid := accepted.loop hl
  have wf := accepted.loopTape hl
  rw [hessianLoop]
  refine Worlds.Ends.bind (ready.yields_neededJacobian accepted
    (exponents.mono fun _ e => e.mono (Nat.le_succ 1)) _) ?_
  rintro rows a₁ ⟨le₁, partials⟩
  have partials (some : l.temporaries ≠ []) : Partials rows a₁ inputs m x :=
    partials (by simpa using some)
  have h := h.extend le₁
  split
  case isTrue empty =>
      refine ends_pure ⟨Arena.keeps_of_le le₁, 0, by simpa using h, fun _ r c k hk => ?_⟩
      have none := TreeMap.getElem?_of_isEmpty empty (a := (r, c))
      cases none.symm.trans hk
  case isFalse =>
      obtain ⟨structure_, hstructure, isOf⟩ :=
        exists_ok_of_yields (yields_loopStructure rows ready.model accepted hl)
      refine Recording.ends_lift_bind hstructure ?_
      obtain ⟨streams, hstreams, claimed⟩ := exists_ok_of_yields
        (structure_.yields_streams (by rw [isOf.loop]; exact valid.pos)
          fun e k hk => (layoutOf.lower e k hk).1)
      refine Recording.ends_lift_bind hstreams ?_
      have pairs : PairsInside l elements.length _ := fun u hu =>
        have ⟨hi, lo, hit, e, he⟩ := isOf.pair_inside wf hu
        ⟨hi, lo, hit, (layoutOf.lower e _ he).2⟩
      have seconds : SecondsInside m l elements.length layout.computed.keys _ := fun u hu =>
        have ⟨hit, he, curved⟩ := isOf.second_inside hu
        ⟨⟨hit, (layoutOf.lower _ _ he).2⟩,
          TreeMap.mem_keys.mpr (TreeMap.mem_iff_isSome_getElem?.mpr (by rw [he]; rfl)), curved⟩
      have amounts (unshadowed : l.Unshadowed) :
          Curved layout ω Y (l.dependents.flatMap Array.toList) fun k =>
            ((structure_.sparsity.toList.flatMap (structure_.pairUses layout)).map
              (Use.amount (pairAt m l x ω) k)).sum +
            ((structure_.curved.flatMap (structure_.secondUses layout)).map
              (Use.amount (secondAt m l x ω) k)).sum := by
        intro r c k hk
        rw [(computes r c).curvature_loop hl valid wf]
        exact isOf.sum_uses accepted hl (nodup_curved hstructure)
          (zeroOutside_of_partials accepted hl partials) unshadowed layoutOf hk
      split
      case isTrue empty =>
          obtain ⟨noPairs, noSeconds⟩ := Bool.and_eq_true_iff.mp empty
          refine ends_pure ⟨Arena.keeps_of_le le₁, _, ?_, amounts⟩
          simp only [claimed.pairs.sum_amount_of_isEmpty noPairs fun u hu => (pairs u hu).2.2.1,
            claimed.seconds.sum_amount_of_isEmpty noSeconds fun u hu => (seconds u hu).1.1, add_zero]
          exact h
      case isFalse =>
          refine ((ready.extend le₁).ends_hessianBody (weighted.extend le₁) accepted fits hl
            exponents claimed pairs seconds (Arena.Keeps.tiered le₁ tiered) h partials).mono ?_
          rintro outputs' a' ⟨keeps, h'⟩
          exact ⟨(Arena.keeps_of_le le₁).trans keeps, _, h', amounts⟩

end

/-! ## The outer part -/

/-- Adding entries to zeros, each where its element is computed. -/
theorem yields_addEntries {elements : List (Nat × Nat)} {layout : Layout}
    (layoutOf : layout.IsOf elements) {E : PairMap (Value F)} {P : Nat × Nat → Prop}
    {f : Nat × Nat → R} (means : (Interpretation.recorded R inputs none).meansMap a E P f) :
    Yields (E.toList.foldlM (fun (outputs : Outputs F) (pair, v) => do
        match layout.computed[pair]? with
        | some k =>
          let sum ← Recording.reporting
            (Value.binary (.binary .add) (outputs.getD k (.const Scalar.zero)) v)
          return outputs.setIfInBounds k sum
        | none => return outputs) (Outputs.zeros elements.length)) a fun outputs a' =>
      ∃ z : Nat → R, outputs.Plain a' inputs elements.length z ∧
        ∀ (e : Nat × Nat) (k : Nat), layout.computed[e]? = some k →
          (P e → z k = f e) ∧ (¬P e → z k = 0) := by
  refine Yields.mono (yields_foldlM (fun done (outputs : Outputs F) a' =>
    ∃ z : Nat → R, outputs.Plain a' inputs elements.length z ∧
      ∀ (e : Nat × Nat) (k : Nat), layout.computed[e]? = some k →
        (e ∈ done.map Prod.fst → z k = f e) ∧ (e ∉ done.map Prod.fst → z k = 0))
    ⟨_, Outputs.plain_zeros _, fun _ _ _ => ⟨by simp, fun _ => rfl⟩⟩ ?_) ?_
  · rintro done ⟨pair, v⟩ rest outputs a' split le ⟨z, h, values⟩
    have hv : E[pair]? = some v := getElem?_of_split split
    have fresh : pair ∉ done.map Prod.fst := by
      have nodup := nodup_map_fst_toList E
      rw [split, List.map_append, List.map_cons, List.nodup_append] at nodup
      exact fun mem => nodup.2.2 pair mem pair (List.mem_cons_self ..) rfl
    have listed (e : Nat × Nat) :
        e ∈ (done ++ [(pair, v)]).map Prod.fst ↔ e ∈ done.map Prod.fst ∨ e = pair := by simp
    dsimp only
    cases hk : layout.computed[pair]? with
    | none =>
        refine yields_pure ⟨z, h, fun e k' hk' => ?_⟩
        have ne : e ≠ pair := by
          rintro rfl
          cases hk.symm.trans hk'
        rw [listed, or_iff_left ne]
        exact values e k' hk'
    | some k =>
        have value := (means.2 pair v hv).extend le
        refine (h.yields_add (layoutOf.lower pair k hk).2 value).mono fun outputs' a'' _ h' =>
          ⟨_, h', fun e k' hk' => ?_⟩
        rw [listed]
        by_cases same : e = pair
        · subst same
          cases hk.symm.trans hk'
          rw [Function.update_self, (values e k hk).2 fresh, zero_add]
          exact ⟨fun _ => rfl, fun free => absurd (.inr rfl) free⟩
        · have apart : k' ≠ k := fun eq => same (layoutOf.computed_inj hk' (eq ▸ hk))
          rw [or_iff_left same, Function.update_of_ne apart]
          exact values e k' hk'
  · rintro outputs a' - ⟨z, h, values⟩
    have keys (e : Nat × Nat) : e ∈ E.toList.map Prod.fst ↔ P e := by
      rw [TreeMap.map_fst_toList_eq_keys, TreeMap.mem_keys, means.1]
    exact ⟨z, h, fun e k hk => by simpa only [keys] using values e k hk⟩

/-- The outer part adds second derivatives to outputs that are zero. -/
theorem Ready.yields_outerHessian [PowerRule R] (ready : asm.Ready a inputs m x)
    (weighted : asm.Weighted a inputs m ω) (accepted : m.Accepted)
    (exponents : m.Exponents (Exponent.Lowers 2))
    {elements : List (Nat × Nat)} {layout : Layout} (layoutOf : layout.IsOf elements)
    {Y : Nat → Nat → Nat → Dual (Dual R)} (computes : ∀ r c, m.Computes (seededTwice x r c) (Y r c)) :
    Yields (asm.outerHessian layout (Outputs.zeros elements.length)) a fun outputs a' =>
      ∃ z : Nat → R, outputs.Plain a' inputs elements.length z ∧
        Curved layout ω Y (Model.computed m.outer? []) z := by
  rw [outerHessian, ready.model, Model.computed_nil]
  cases ho : m.outer? with
  | none => exact yields_pure ⟨_, Outputs.plain_zeros _, fun _ _ _ _ => rfl⟩
  | some o =>
      have wf := accepted.outerTape ho
      have valid := accepted.outer ho
      obtain ⟨sparsity, hs, meets⟩ := exists_ok_of_yields (accepted.yields_outerHessianSparsity ho)
      refine Recording.ends_lift_bind hs ?_
      rw [Option.elim_some]
      have zero {r c : Nat} (free : (r, c) ∉ sparsity) : 0 = Model.curvature ω (Y r c) o.dependents :=
        ((computes r c).curvature_outer_eq_zero ho valid wf fun meet =>
          free ((meets r c).mpr meet)).symm
      dsimp only
      split
      case isTrue none =>
          refine yields_pure ⟨_, Outputs.plain_zeros _, fun r c k hk => zero fun mem => ?_⟩
          have listed : (r, c) ∈ layout.computed.keys.filter sparsity.contains := by
            simpa [TreeMap.mem_iff_isSome_getElem?, hk] using mem
          rw [List.isEmpty_iff.mp none] at listed
          exact List.not_mem_nil listed
      case isFalse =>
          refine Yields.bind (yields_mapM (P := fun i v a' => ∀ it, a'.Means inputs it v
            (o.weightAt ω i)) ?_ ?_) fun seeds a₁ le₁ hω => ?_
          · exact fun i v a₁ a₂ le h it => (h it).extend le
          · intro i _ a' le
            rw [List.getElem?_toArray, Outer.weightAt]
            cases hd : o.dependents[i]? with
            | none => exact yields_pure fun it => Arena.means_zero
            | some d =>
                have lt : d < asm.weights.size := (show asm.weights.size = _ from weighted.size_eq) ▸
                  accepted.valid.outerDependents_lt ho (List.mem_of_getElem? hd)
                have hv := Array.getElem?_eq_getElem lt
                exact yields_present hv fun it => (weighted.extend le).means it d _ hv
          refine Yields.bind (wf.yields_hessianEntries (Interpretation.recorded R inputs none)
            (ω := o.weightAt ω)
            ((exponents.1 o ho).mono (Interpretation.takes_recorded inputs none).dual.dual) ?_
            ((ready.extend le₁).independents.means none) ?_ ?_ ?_) fun E a₂ le₂ means => ?_
          · rw [Array.length_toList, ready.independents.size_eq, accepted.valid.outerInputs ho]
          · rw [← hω.length_eq, List.length_range]
          · intro i v hv
            rw [List.getElem?_toArray] at hv
            obtain ⟨i', hi, h⟩ := exists_left_of_forall₂ hω hv
            obtain ⟨lt, rfl⟩ := List.getElem?_eq_some_iff.mp hi
            rw [List.getElem_range] at h
            exact h none
          · rintro ⟨i, j⟩ mem
            have mem : (i, j) ∈ layout.computed ∧ (i, j) ∈ sparsity := by simpa using mem
            exact wf.meet_lt ((meets i j).mp mem.2)
          · refine (yields_addEntries layoutOf means).mono ?_
            rintro outputs a' - ⟨z, h, values⟩
            refine ⟨z, h, fun r c k hk => ?_⟩
            by_cases mem : (r, c) ∈ sparsity
            · rw [(computes r c).curvature_outer ho valid]
              refine (values (r, c) k hk).1 ?_
              simpa [TreeMap.mem_iff_isSome_getElem?, hk] using mem
            · rw [← zero mem]
              exact (values (r, c) k hk).2 fun listed => mem (by simpa using listed : _ ∧ _).2

/-! ## Synonyms -/

/-- After some synonyms have been named, an output is a synonym that shows what
was at the location of its source, or is as it was. -/
structure Named (done : List (Nat × Nat)) (outputs : Outputs F) (a : Arena F)
    (inputs : List (Array F)) (size : Nat) (z : Nat → R) : Prop where
  size_eq : outputs.size = size
  shows {k : Nat} {v : Value F} : outputs[k]? = some v →
    (∃ source, (k, source) ∈ done ∧ a.Shows inputs v (z source)) ∨
      k ∉ done.map Prod.fst ∧ a.Holds inputs k v (z k)

/-- Naming synonyms of outputs that are no synonyms themselves. -/
theorem yields_nameSynonyms {outputs : Outputs F} {z : Nat → R}
    (h : outputs.Hold a inputs size z) {synonyms : List (Nat × Nat)}
    (sources : ∀ e ∈ synonyms, e.2 < size ∧ e.2 ∉ synonyms.map Prod.fst) :
    Yields (nameSynonyms synonyms outputs) a fun outputs' a' =>
      Named synonyms outputs' a' inputs size z := by
  rw [nameSynonyms]
  refine Yields.mono (yields_foldlM (fun done (outputs' : Outputs F) a' =>
    Named done outputs' a' inputs size z) ?_ ?_) fun _ _ _ h => h
  · exact ⟨h.size_eq, fun {k v} hv => .inr ⟨by simp, h.holds hv⟩⟩
  · rintro done ⟨k, source⟩ rest outputs' a' split le named
    obtain ⟨lt, free⟩ := sources (k, source) (by simp [split])
    have lt : source < outputs'.size := named.size_eq.symm ▸ lt
    have hv := Array.getElem?_eq_getElem lt
    have holds : a'.Holds inputs source outputs'[source] (z source) := by
      rcases named.shows hv with ⟨source', mem, -⟩ | ⟨-, holds⟩
      · exact absurd (List.mem_map.mpr ⟨(source, source'), by simp [split, mem], rfl⟩) free
      · exact holds
    refine yields_present_bind hv ?_
    have set {a'' : Arena F} (le' : a' ≤ a'') {v : Value F}
        (shows_ : a''.Shows inputs v (z source)) :
        Named (done ++ [(k, source)]) (outputs'.setIfInBounds k v) a'' inputs size z := by
      refine ⟨(Array.size_setIfInBounds ..).trans named.size_eq, fun {k' v'} hv' => ?_⟩
      rw [Array.getElem?_setIfInBounds] at hv'
      split at hv'
      case isTrue eq =>
          cases (Option.ite_none_right_eq_some.mp hv').2
          exact .inl ⟨source, by simp [eq], shows_⟩
      case isFalse ne =>
          rcases named.shows hv' with ⟨source', mem, h⟩ | ⟨free, h⟩
          · exact .inl ⟨source', List.mem_append_left _ mem, h.extend le'⟩
          · exact .inr ⟨by simpa [Ne.symm ne] using free, h.extend le'⟩
    generalize outputs'[source] = v at holds
    cases v with
    | node r =>
        exact Yields.bind (yields_synonym holds) fun s a'' le' h => yields_pure (set le' h)
    | const x => exact yields_pure (set le_rfl (.held holds))

/-! ## All elements -/

/-- The graph of a weighted Hessian can be recorded, and every output has a
number: the second derivative at its element, if no temporary meets a shadowed
input. -/
theorem Ready.ends_hessian [PowerRule R] (ready : asm.Ready a inputs m x)
    (weighted : asm.Weighted a inputs m ω) (accepted : m.Accepted) {elements : List (Nat × Nat)}
    (fits : m.Fits elements.length) (exponents : m.Exponents (Exponent.Lowers 2))
    (nodup : elements.Nodup) {Y : Nat → Nat → Nat → Dual (Dual R)}
    (computes : ∀ r c, m.Computes (seededTwice x r c) (Y r c)) (tiered : a.Tiered) :
    Ends (asm.hessian elements) a fun outputs a' => outputs.length = elements.length ∧
      ∃ y : Nat → R, (∀ (k : Nat) (v : Value F), outputs[k]? = some v → a'.Shows inputs v (y k)) ∧
        ((∀ l ∈ m.loops, l.Unshadowed) → ∀ k e, elements[k]? = some e →
          y k = Model.curvature ω (Y e.1 e.2) (Model.computed m.outer? m.loops)) := by
  obtain ⟨layout, hlayout, layoutOf⟩ := exists_ok_of_yields (Layout.yields_ofElements nodup)
  rw [hessian]
  refine Recording.ends_lift_bind hlayout ?_
  refine Worlds.Ends.bind
    (ready.yields_outerHessian weighted accepted exponents layoutOf computes) ?_
  rintro outputs a₁ ⟨le₁, z, h₁, curved⟩
  rw [ready.model]
  refine Worlds.Ends.bind (P := fun outputs a' => ∃ z : Nat → R,
    outputs.Hold a' inputs elements.length z ∧ ((∀ l ∈ m.loops, l.Unshadowed) →
      Curved layout ω Y (Model.computed m.outer? m.loops) z)) ?_ ?_
  · refine Worlds.Ends.mono (ends_foldlM (fun done (outputs : Outputs F) a' =>
      a₁.Keeps Arena.LoopKind a' ∧ ∃ z : Nat → R, outputs.Hold a' inputs elements.length z ∧
        ((∀ l ∈ m.loops, l.Unshadowed) → Curved layout ω Y (Model.computed m.outer? done) z))
      ⟨.refl _ _, z, h₁.hold, fun _ => curved⟩ ?_) fun _ _ h => h.2
    rintro done l rest outputs a' split ⟨keeps, z, h, curved⟩
    have hl : l ∈ m.loops := by simp [split]
    have low := Arena.loopKind_of_tier_zero
    refine (((ready.extend le₁).keep low keeps).ends_hessianLoop
      ((weighted.extend le₁).keep low keeps) accepted fits hl exponents layoutOf computes
      (keeps.tiered (Arena.Keeps.tiered le₁ tiered)) h).mono ?_
    rintro outputs' a'' ⟨keeps', gain, h', gains⟩
    refine ⟨keeps.trans keeps', _, h', fun unshadowed r c k hk => ?_⟩
    rw [Model.computed_append, Model.curvature_append, curved unshadowed r c k hk,
      gains (unshadowed l hl) r c k hk]
  · rintro outputs a' ⟨z, h, curved⟩
    refine Worlds.Ends.bind (yields_nameSynonyms h fun e he => layoutOf.source he) ?_
    rintro outputs' a'' ⟨-, named⟩
    have parts := layoutOf.partitions (Layout.nodup_of_ofElements hlayout).2
    -- an output shows what is at the location where its element or the transpose is computed
    have shown (k : Nat) : ∃ k', (∀ v, outputs'[k]? = some v → a''.Shows inputs v (z k')) ∧
        ∀ e, elements[k]? = some e → layout.computed[Layout.representative e]? = some k' := by
      cases hv : outputs'[k]? with
      | none =>
          refine ⟨k, nofun, fun e he => ?_⟩
          rw [Array.getElem?_eq_none_iff, named.size_eq] at hv
          exact absurd (List.getElem?_eq_some_iff.mp he).1 (Nat.not_lt_of_le hv)
      | some v =>
          rcases named.shows hv with ⟨source, mem, shows_⟩ | ⟨free, holds⟩
          · refine ⟨source, fun _ eq => Option.some.inj eq ▸ shows_, fun e he => ?_⟩
            obtain ⟨e', -, here, -, computed⟩ := parts.synonym mem
            cases here.symm.trans he
            exact computed
          · refine ⟨k, fun _ eq => Option.some.inj eq ▸ .held holds, fun e he => ?_⟩
            refine ((parts.role he).resolve_right ?_).1
            rintro ⟨⟨source, mem⟩, -⟩
            exact free (List.mem_map_of_mem (f := Prod.fst) mem)
    choose source shows_ computed using shown
    refine ends_pure ⟨by simpa using named.size_eq, fun k => z (source k),
      fun k v hv => shows_ k v (by simpa using hv), fun unshadowed k e he => ?_⟩
    refine (curved unshadowed _ _ _ (computed k e he)).trans ?_
    by_cases le : e.2 ≤ e.1
    · rw [max_eq_left le, min_eq_right le]
    · rw [max_eq_right (Nat.le_of_not_le le), min_eq_left (Nat.le_of_not_le le)]
      exact (computes e.2 e.1).curvature_symm accepted.valid (computes e.1 e.2) fun d hd =>
        List.mem_range.mp (accepted.valid.covers.mem_iff.mp hd)

end Assembly

/-! ## Evaluation -/

namespace Model

/-- The numbers `vs` are read as the second derivatives of the weighted
dependents at the requested elements, at the numbers `xs` and with the weights
`ws`. -/
def ReadsAsSecondDerivatives (m : Model F) (R : Type) [Elementary R] [Reading F R]
    (elements : List (Nat × Nat)) (xs ws vs : List F) : Prop :=
  ∃ Y : Nat → Nat → Nat → Dual (Dual R),
    (∀ r c, m.Computes (seededTwice (fun j => embed (xs.getD j Scalar.zero)) r c) (Y r c)) ∧
    ∀ (k : Nat) (v : F) (e : Nat × Nat), vs[k]? = some v → elements[k]? = some e →
      embed v = curvature (fun d => embed (ws.getD d Scalar.zero)) (Y e.1 e.2)
        (computed m.outer? m.loops)

/-- The graph of a weighted Hessian, on any numbers, gives as many numbers as
there are elements: the second derivatives, if no temporary meets a shadowed
input. -/
theorem Accepted.assemble_hessian [PowerRule R] {m : Model F} (accepted : m.Accepted)
    (exponents : m.Exponents (Exponent.Lowers 2)) {elements : List (Nat × Nat)}
    (fits : m.Fits elements.length) (room : 24 * m.range < 0x8000000000000000)
    (nodup : elements.Nodup) :
    ∃ c : Compiled F, m.assemble true (fun asm => asm.hessian elements) = .ok c ∧
      c.outputs.length = elements.length ∧ ∀ xs ws : List F, xs.length = m.domain →
        ws.length = m.range → ∃ vs, c.Gives [xs, ws] vs ∧
          vs.length = elements.length ∧ ((∀ l ∈ m.loops, l.Unshadowed) →
            m.ReadsAsSecondDerivatives R elements xs ws vs) := by
  let Numbers := {xs : List F // xs.length = m.domain} × {ws : List F // ws.length = m.range}
  let numbers (n : Numbers) : List (List F) := [n.1.1, n.2.1]
  let Reads (n : Numbers) (y : Nat → R) : Prop := (∀ l ∈ m.loops, l.Unshadowed) →
    ∃ Y : Nat → Nat → Nat → Dual (Dual R),
      (∀ r c, m.Computes (seededTwice (fun j => embed (n.1.1.getD j Scalar.zero)) r c) (Y r c)) ∧
        ∀ (k : Nat) (e : Nat × Nat), elements[k]? = some e →
          y k = curvature (fun d => embed (n.2.1.getD d Scalar.zero)) (Y e.1 e.2)
            (computed m.outer? m.loops)
  have ends (n : Numbers) :
      Ends (Assembly.begin m true >>= fun asm => asm.hessian elements) (Arena.empty 1) fun vs a =>
        vs.length = elements.length ∧ ∃ y : Nat → R, Reads n y ∧
          ∀ (k : Nat) (v : Value F), vs[k]? = some v → ∃ x,
            Problem.output? ⟨a, (numbers n).map List.toArray⟩ v = some x ∧ embed x = y k := by
    choose Y computes using fun r c => m.exists_computes accepted.valid
      (seededTwice (fun j => (embed (n.1.1.getD j Scalar.zero) : R)) r c)
    have independents : Supplies ((numbers n).map List.toArray) independentsArray m.domain
        fun j => (embed (n.1.1.getD j Scalar.zero) : R) := supplies_of_list rfl n.1.2
    have weights : Supplies ((numbers n).map List.toArray) weightsArray m.range
        fun d => (embed (n.2.1.getD d Scalar.zero) : R) := supplies_of_list rfl n.2.2
    refine Worlds.Ends.bind (Assembly.yields_begin_weighted fits room independents weights) ?_
    rintro asm a ⟨le, ready, weighted⟩
    refine (ready.ends_hessian weighted accepted fits exponents nodup computes
      (Arena.Keeps.tiered le (tiered_empty 1))).mono fun outputs a' ⟨length, y, shows_, values⟩ =>
        ⟨length, y, fun unshadowed => ⟨Y, computes, values unshadowed⟩, fun k v hv => ?_⟩
    exact (shows_ k v hv).value
  obtain ⟨c, assembled, length, h⟩ := assemble_of_forall numbers ends
  refine ⟨c, assembled, length, fun xs ws lenX lenW => ?_⟩
  obtain ⟨y, reads, vs, gives, count, values⟩ := h (⟨xs, lenX⟩, ⟨ws, lenW⟩)
  refine ⟨vs, gives, count, fun unshadowed => ?_⟩
  obtain ⟨Y, computes, eq⟩ := reads unshadowed
  exact ⟨Y, computes, fun k v e hv he => (values k v hv).trans (eq k e he)⟩

end Model

end LoopDiff
