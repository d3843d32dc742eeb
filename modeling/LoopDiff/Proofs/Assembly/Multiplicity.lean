import LoopDiff.Proofs.Assembly.Layout
import LoopDiff.Proofs.Assembly.Streams

/-!
# LoopDiff.Proofs.Assembly.Multiplicity

How often the streams of a Hessian are claimed.

A pair of tape inputs uses a stream at most once at an iteration, because the
chains of the stream tell which independents are meant
(`LoopStructure.nodup_pairUses`).  Only the same inputs in the other order
can use it again.  They use it for the transposed element, which is computed
as well on the diagonal and nowhere else (`LoopStructure.swap_of_mem_pairUses`).
So the elements of the diagonal get the mixed derivatives twice and all
others get them once, as the symmetric Hessian has it.
-/

namespace LoopDiff

open Std (TreeMap TreeSet)

/-- Lists without repeats, one after another: the occurrences of a member are
the lists that it is in. -/
theorem count_flatMap_of_nodup {α β : Type} [DecidableEq β] {f : α → List β} {l : List α}
    (nodup : ∀ x, (f x).Nodup) (b : β) :
    (l.flatMap f).count b = (l.filter fun x => b ∈ f x).length := by
  induction l with
  | nil => rfl
  | cons x l ih =>
      rw [List.flatMap_cons, List.count_append, ih, (nodup x).count, List.filter_cons]
      by_cases mem : b ∈ f x <;> simp [mem, Nat.add_comm]

/-- Parts that a key tells apart, without repeats each. -/
theorem nodup_flatMap_of_key {α β γ : Type} {f : α → List β} {l : List α} (key : α → γ)
    (g : β → γ) (keys : (l.map key).Nodup) (parts : ∀ x ∈ l, (f x).Nodup)
    (keyed : ∀ x ∈ l, ∀ y ∈ f x, g y = key x) : (l.flatMap f).Nodup := by
  refine List.nodup_flatMap.mpr ⟨parts, ?_⟩
  refine (List.pairwise_map.mp keys).imp_of_mem fun {x x'} hx hx' ne y hy hy' => ne ?_
  exact (keyed x hx y hy).symm.trans (keyed x' hx' y hy')

theorem Layout.IsOf.computed_inj {layout : Layout} {elements : List (Nat × Nat)}
    (h : layout.IsOf elements) {e e' : Nat × Nat} {k : Nat} (hk : layout.computed[e]? = some k)
    (hk' : layout.computed[e']? = some k) : e = e' := by
  rcases h.computed.mp hk with ⟨le, here⟩ | ⟨lt, here, -⟩ <;>
    rcases h.computed.mp hk' with ⟨le', here'⟩ | ⟨lt', here', -⟩
  · exact Option.some.inj (here.symm.trans here')
  · cases here.symm.trans here'
    exact absurd lt' (Nat.not_lt.mpr le)
  · cases here'.symm.trans here
    exact absurd lt (Nat.not_lt.mpr le')
  · exact Prod.swap_injective (Option.some.inj (here.symm.trans here'))

namespace LoopStructure

variable {F : Type} {l : LoopStructure F} {layout : Layout} {elements : List (Nat × Nat)}
  {p q it : Nat} {e e' : Nat × Nat} {u : Use PairStream}

/-! ## Uses by one pair of inputs -/

theorem nodup_behind (q it : Nat) : (l.behind q it).Nodup := by
  rw [behind]
  cases l.dependencies[q]? with
  | some independents =>
      exact (nodup_toList independents).map fun _ _ eq => (Prod.mk.inj eq).1
  | none =>
      cases l.loop.independentAt? q it with
      | none => exact List.nodup_nil
      | some j => exact List.nodup_singleton _

theorem ofInputs_chains {chainP chainQ chainP' chainQ' : Option Nat}
    (h : PairStream.ofInputs p q chainP chainQ = .ofInputs p q chainP' chainQ') :
    chainP = chainP' ∧ chainQ = chainQ' := by
  rw [PairStream.ofInputs, PairStream.ofInputs] at h
  split at h <;> cases h <;> exact ⟨rfl, rfl⟩

theorem ofInputs_symm {chainP chainQ : Option Nat} (ne : p ≠ q) :
    PairStream.ofInputs q p chainQ chainP = .ofInputs p q chainP chainQ := by
  rw [PairStream.ofInputs, PairStream.ofInputs]
  split <;> split <;> first | rfl | omega

theorem ofInputs_hi_ne_lo {chainP chainQ : Option Nat} :
    (PairStream.ofInputs p q chainP chainQ).hi ≠ (PairStream.ofInputs p q chainP chainQ).lo ↔
      p ≠ q := by
  rw [PairStream.ofInputs]
  split
  · exact Iff.rfl
  · exact ne_comm

theorem nodup_streamsAt (layout : Layout) (p q it : Nat) :
    (l.streamsAt layout p q it).Nodup := by
  rw [streamsAt, List.Nodup, List.pairwise_flatMap]
  constructor
  · rintro ⟨row, chainP⟩ -
    refine List.pairwise_filterMap.mpr ((nodup_behind q it).imp_of_mem ?_)
    rintro ⟨col, chainQ⟩ ⟨col', chainQ'⟩ hq hq' ne s hs s' hs' rfl
    obtain ⟨location, -, rfl⟩ := Option.map_eq_some_iff.mp hs
    obtain ⟨location', -, eq⟩ := Option.map_eq_some_iff.mp hs'
    obtain ⟨-, rfl⟩ := ofInputs_chains (Prod.mk.inj eq).1
    exact ne (by rw [behind_unique hq hq'])
  · refine (nodup_behind p it).imp_of_mem ?_
    rintro ⟨row, chainP⟩ ⟨row', chainP'⟩ hp hp' ne s hs s' hs' rfl
    obtain ⟨⟨col, chainQ⟩, -, hs⟩ := List.mem_filterMap.mp hs
    obtain ⟨⟨col', chainQ'⟩, -, hs'⟩ := List.mem_filterMap.mp hs'
    obtain ⟨location, -, rfl⟩ := Option.map_eq_some_iff.mp hs
    obtain ⟨location', -, eq⟩ := Option.map_eq_some_iff.mp hs'
    obtain ⟨rfl, -⟩ := ofInputs_chains (Prod.mk.inj eq).1
    exact ne (by rw [behind_unique hp hp'])

theorem nodup_pairUses (layout : Layout) (e : Nat × Nat) : (l.pairUses layout e).Nodup := by
  rw [pairUses]
  split
  case isTrue =>
      refine nodup_flatMap_of_key id Use.iteration ?_ (fun it _ => ?_) fun it _ u hu => ?_
      · rw [List.map_id]
        exact List.nodup_range
      · refine (nodup_streamsAt layout e.1 e.2 it).map fun s s' eq => ?_
        simp only [use, Use.mk.injEq, true_and] at eq
        exact Prod.ext eq.1 eq.2
      · obtain ⟨s, -, rfl⟩ := List.mem_map.mp hu
        rfl
  case isFalse => exact List.nodup_nil

theorem nodup_secondUses (layout : Layout) (e : Nat × PairSet) :
    (l.secondUses layout e).Nodup := by
  refine nodup_flatMap_of_key id (fun u => (u.stream.row, u.stream.col)) ?_ ?_ ?_
  · rw [List.map_id]
    exact nodup_toList e.2
  · rintro ⟨row, col⟩ -
    cases hc : layout.computed[(row, col)]? with
    | none => simp [hc]
    | some location =>
        simp only [hc, Option.elim_some]
        exact List.nodup_range.map fun it it' eq => congrArg Use.iteration eq
  · rintro ⟨row, col⟩ - u hu
    cases hc : layout.computed[(row, col)]? with
    | none => simp [hc] at hu
    | some location =>
        simp only [hc, Option.elim_some, List.mem_map] at hu
        obtain ⟨it, -, rfl⟩ := hu
        rfl

/-! ## Uses in the other order -/

/-- Only the same inputs in the other order use a stream again, for an
element of the diagonal. -/
theorem eq_or_swap_of_mem_pairUses (h : layout.IsOf elements) (hu : u ∈ l.pairUses layout e)
    (hu' : u ∈ l.pairUses layout e') :
    e' = e ∨ e' = e.swap ∧ ∃ r : Nat, layout.computed[(r, r)]? = some u.location := by
  obtain ⟨p, q⟩ := e
  obtain ⟨p', q'⟩ := e'
  obtain ⟨row, chainP, col, chainQ, hp, hq, computed, eq⟩ :=
    mem_streamsAt.mp (mem_pairUses.mp hu).2.2
  obtain ⟨row', chainP', col', chainQ', hp', hq', computed', eq'⟩ :=
    mem_streamsAt.mp (mem_pairUses.mp hu').2.2
  rcases ofInputs_inj (eq.trans eq'.symm) with ⟨rfl, rfl, -⟩ | ⟨rfl, rfl, rfl, rfl⟩
  · exact .inl rfl
  · cases behind_unique hp hq'
    cases behind_unique hq hp'
    obtain rfl : row = col := congrArg Prod.fst (h.computed_inj computed computed')
    exact .inr ⟨rfl, row, computed⟩

/-- Two inputs use a stream in both orders for an element of the diagonal. -/
theorem swap_of_mem_pairUses (h : layout.IsOf elements) (hu : u ∈ l.pairUses layout e)
    (ne : e.1 ≠ e.2) {r : Nat} (diagonal : layout.computed[(r, r)]? = some u.location) :
    u ∈ l.pairUses layout e.swap := by
  obtain ⟨contributes, hit, hs⟩ := mem_pairUses.mp hu
  obtain ⟨row, chainP, col, chainQ, hp, hq, computed, eq⟩ := mem_streamsAt.mp hs
  cases h.computed_inj computed diagonal
  have contributes' : l.contributes e.2 e.1 = true := by
    rwa [LoopStructure.contributes, Bool.and_comm]
  exact mem_pairUses.mpr ⟨contributes', hit, mem_streamsAt.mpr
    ⟨r, chainQ, r, chainP, hq, hp, computed, (ofInputs_symm ne).trans eq⟩⟩

/-! ## Counts -/

/-- A stream of two inputs is used twice for an element of the diagonal, and
once for every other. -/
theorem count_pairUses (h : layout.IsOf elements)
    (symm : ∀ p q, (p, q) ∈ l.sparsity → (q, p) ∈ l.sparsity)
    (hu : u ∈ l.sparsity.toList.flatMap (l.pairUses layout)) :
    let count := (l.sparsity.toList.flatMap (l.pairUses layout)).count u
    (count = 1 ∨ count = 2) ∧ (count = 2 ↔ u.stream.hi ≠ u.stream.lo ∧
      ∃ r : Nat, layout.computed[(r, r)]? = some u.location) := by
  obtain ⟨e, he, hu⟩ := List.mem_flatMap.mp hu
  have apart : u.stream.hi ≠ u.stream.lo ↔ e.1 ≠ e.2 := by
    obtain ⟨_, _, _, _, -, -, -, eq⟩ := mem_streamsAt.mp (mem_pairUses.mp hu).2.2
    rw [← eq]
    exact ofInputs_hi_ne_lo
  have users := (nodup_toList l.sparsity).filter fun e => u ∈ l.pairUses layout e
  have mem (e' : Nat × Nat) : e' ∈ l.sparsity.toList.filter (fun e => u ∈ l.pairUses layout e) ↔
      e' ∈ l.sparsity ∧ u ∈ l.pairUses layout e' := by simp
  rw [count_flatMap_of_nodup (nodup_pairUses layout), apart]
  by_cases twice : e.1 ≠ e.2 ∧ ∃ r : Nat, layout.computed[(r, r)]? = some u.location
  · have both : (l.sparsity.toList.filter fun e => u ∈ l.pairUses layout e).Perm [e, e.swap] := by
      refine (List.perm_ext_iff_of_nodup users ?_).mpr fun e' => ?_
      · simp [Prod.ext_iff, twice.1]
      · rw [mem, List.mem_pair]
        constructor
        · rintro ⟨-, hu'⟩
          exact (eq_or_swap_of_mem_pairUses h hu hu').imp_right And.left
        · rintro (rfl | rfl)
          · exact ⟨TreeSet.mem_toList.mp he, hu⟩
          · obtain ⟨ne, r, diagonal⟩ := twice
            exact ⟨symm _ _ (TreeSet.mem_toList.mp he), swap_of_mem_pairUses h hu ne diagonal⟩
    simp [both.length_eq, twice]
  · have one : (l.sparsity.toList.filter fun e => u ∈ l.pairUses layout e).Perm [e] := by
      refine (List.perm_ext_iff_of_nodup users (List.nodup_singleton e)).mpr fun e' => ?_
      rw [mem, List.mem_singleton]
      constructor
      · rintro ⟨-, hu'⟩
        rcases eq_or_swap_of_mem_pairUses h hu hu' with same | ⟨rfl, diagonal⟩
        · exact same
        · have same : e.1 = e.2 := not_not.mp fun ne => twice ⟨ne, diagonal⟩
          exact Prod.ext same.symm same
      · rintro rfl
        exact ⟨TreeSet.mem_toList.mp he, hu⟩
    simp [one.length_eq, twice]

/-- A second derivative of a temporary is used once, if no input is listed
twice. -/
theorem count_secondUses (distinct : (l.curved.map Prod.fst).Nodup) {u : Use SecondStream}
    (hu : u ∈ l.curved.flatMap (l.secondUses layout)) :
    (l.curved.flatMap (l.secondUses layout)).count u = 1 := by
  obtain ⟨e, he, hu⟩ := List.mem_flatMap.mp hu
  have one : (l.curved.filter fun e => u ∈ l.secondUses layout e).Perm [e] := by
    refine (List.perm_ext_iff_of_nodup (distinct.of_map.filter _)
      (List.nodup_singleton e)).mpr fun e' => ?_
    rw [List.mem_filter, List.mem_singleton, decide_eq_true_iff]
    constructor
    · rintro ⟨he', hu'⟩
      exact List.inj_on_of_nodup_map distinct he' he
        ((mem_secondUses.mp hu').1.symm.trans (mem_secondUses.mp hu).1)
    · rintro rfl
      exact ⟨he, hu⟩
  rw [count_flatMap_of_nodup (nodup_secondUses layout), one.length_eq]
  rfl

/-- No temporary input is listed twice. -/
theorem nodup_curved [Scalar F] {asm : Assembly F} {loop : Loop F}
    {rows : List (TreeMap Nat (Value F))} (h : asm.loopStructure loop rows = .ok l) :
    (l.curved.map Prod.fst).Nodup := by
  rw [Assembly.loopStructure] at h
  obtain ⟨sparsity, -, h⟩ := bind_eq_ok h
  cases ho : asm.model.outer? with
  | none =>
      rw [ho] at h
      cases h
      exact List.nodup_nil
  | some o =>
      rw [ho] at h
      obtain ⟨used, -, h⟩ := bind_eq_ok h
      obtain ⟨curved, hc, h⟩ := bind_eq_ok h
      cases h
      have same : List.Forall₂ (fun (e : Nat × Nat) (r : Nat × PairSet) => e.1 = r.1)
          (loop.temporaryInputs.filter fun e => used.contains e.1) curved := by
        refine (forall₂_of_mapM hc).imp fun e r he => ?_
        obtain ⟨pattern, -, eq⟩ := bind_eq_ok he
        cases eq
        rfl
      have inputs := List.forall₂_map_left_iff.mpr (List.forall₂_map_right_iff.mpr same)
      rw [List.forall₂_eq_eq_eq] at inputs
      rw [← inputs]
      exact (List.filter_sublist.map Prod.fst).nodup (nodup_temporaryInputs loop)

/-! ## Claims -/

/-- The streams of a loop are claimed for the elements that they are
derivatives of, as often as the symmetric Hessian has them. -/
structure Multiplicities (l : LoopStructure F) (layout : Layout) (streams : HessianStreams) :
    Prop where
  pair {stream : PairStream} {claims : Claims} {it : Nat} {c : Claim} :
    streams.pairs[stream]? = some claims → claims[it]? = some c →
      (∃ row col, (row, stream.chainHi) ∈ l.behind stream.hi it ∧
        (col, stream.chainLo) ∈ l.behind stream.lo it ∧
          layout.computed[(max row col, min row col)]? = some c.location) ∧
      (c.count = 1 ∨ c.count = 2) ∧ (c.count = 2 ↔ stream.hi ≠ stream.lo ∧
        ∃ r : Nat, layout.computed[(r, r)]? = some c.location)
  second {stream : SecondStream} {claims : Claims} {it : Nat} {c : Claim} :
    streams.seconds[stream]? = some claims → claims[it]? = some c →
      layout.computed[(stream.row, stream.col)]? = some c.location ∧ c.count = 1

/-- The element that a pair stream is used for. -/
theorem element_of_mem_pairUses (h : layout.IsOf elements) (hu : u ∈ l.pairUses layout e) :
    ∃ row col, (row, u.stream.chainHi) ∈ l.behind u.stream.hi u.iteration ∧
      (col, u.stream.chainLo) ∈ l.behind u.stream.lo u.iteration ∧
        layout.computed[(max row col, min row col)]? = some u.location := by
  obtain ⟨row, chainP, col, chainQ, hp, hq, computed, eq⟩ :=
    mem_streamsAt.mp (mem_pairUses.mp hu).2.2
  have lower : col ≤ row := (h.lower _ _ computed).1
  rw [← eq, PairStream.ofInputs]
  split
  · exact ⟨row, col, hp, hq, by rwa [Nat.max_eq_left lower, Nat.min_eq_right lower]⟩
  · exact ⟨col, row, hq, hp, by rwa [Nat.max_eq_right lower, Nat.min_eq_left lower]⟩

theorem multiplicities_of_claimed {streams : HessianStreams} (h : layout.IsOf elements)
    (symm : ∀ p q, (p, q) ∈ l.sparsity → (q, p) ∈ l.sparsity)
    (distinct : (l.curved.map Prod.fst).Nodup)
    (claimed : streams.Claimed (l.sparsity.toList.flatMap (l.pairUses layout))
      (l.curved.flatMap (l.secondUses layout))) : l.Multiplicities layout streams where
  pair {stream claims it c} hs hc := by
    have used := (claimed.pairs.claim hs hc).2
    obtain ⟨e, -, hu⟩ := List.mem_flatMap.mp used
    rw [claimed.pairs.count_eq hs hc]
    exact ⟨element_of_mem_pairUses h hu, count_pairUses h symm used⟩
  second {stream claims it c} hs hc := by
    have used := (claimed.seconds.claim hs hc).2
    obtain ⟨e, -, hu⟩ := List.mem_flatMap.mp used
    rw [claimed.seconds.count_eq hs hc]
    exact ⟨(mem_secondUses.mp hu).2.2.2, count_secondUses distinct used⟩

end LoopStructure

/-- The streams of every loop of an accepted model can be claimed for any
elements without a repeat: a second location at an iteration never arises.
An element of the diagonal claims the second derivatives at two different
inputs twice, and every other claim is made once. -/
theorem Model.Accepted.hessian_multiplicities {F : Type} [Scalar F] {m : Model F}
    (accepted : m.Accepted) {asm : Assembly F} (model : asm.model = m) {loop : Loop F}
    (hl : loop ∈ m.loops) {elements : List (Nat × Nat)} (nodup : elements.Nodup)
    (rows : List (TreeMap Nat (Value F))) :
    ∃ layout l streams, Layout.ofElements elements = .ok layout ∧
      asm.loopStructure loop rows = .ok l ∧ l.streams layout = .ok streams ∧
      l.Multiplicities layout streams := by
  obtain ⟨layout, hlayout, isOf⟩ := exists_ok_of_yields (Layout.yields_ofElements nodup)
  obtain ⟨l, hstructure, structureOf⟩ :=
    exists_ok_of_yields (LoopStructure.yields_loopStructure rows model accepted hl)
  have pos : 0 < l.loop.iterations := structureOf.loop ▸ (accepted.loop hl).pos
  obtain ⟨streams, hstreams, claimed⟩ :=
    exists_ok_of_yields (l.yields_streams pos fun e k hk => (isOf.lower e k hk).1)
  refine ⟨layout, l, streams, hlayout, hstructure, hstreams, ?_⟩
  refine LoopStructure.multiplicities_of_claimed isOf (fun p q hpq => ?_)
    (LoopStructure.nodup_curved hstructure) claimed
  exact (structureOf.sparsity q p).mpr ((structureOf.sparsity p q).mp hpq).symm

namespace Model

variable {F : Type}

/-- A loop that multiplies the only independent by itself. -/
def squareLoop (F : Type) : Loop F where
  id := 0
  tape := ⟨#[.input, .input, .binary .mul 0 (some 1)], 2, [2]⟩
  iterations := 1
  dependents := [#[0]]
  indexed := [#[0]]
  nonIndexed := [0]
  temporaries := []
  dependentPatterns := [.constant 0]
  indexedPatterns := [.constant 0]

/-- The square of the only independent. -/
def square (F : Type) : Model F := ⟨"square", 1, 1, none, [squareLoop F]⟩

theorem accepted_square : (square F).Accepted where
  make_eq := by
    have parts : checkParts "square" 1 1 none (square F).loops = .ok () := by
      have all : firstMissing? 1 ((∅ : IndexSet).insert 0) 0 = none :=
        firstMissing?_of_forall (by decide)
      have outer : coverOuter 1 1 (none : Option (Outer F)) = .ok ∅ := rfl
      rw [checkParts, bind_of_ok outer]
      refine (bind_of_ok (x := (∅ : IndexSet).insert 0) rfl _).trans ?_
      rw [all]
      rfl
    show checkParts "square" 1 1 none (square F).loops >>= (fun _ => .ok (square F)) = _
    rw [parts]
    rfl
  outer_eq := nofun
  loop_eq := by
    intro l hl
    cases List.mem_singleton.mp hl
    rfl
  outerTape := nofun
  loopTape := by
    intro l hl
    cases List.mem_singleton.mp hl
    exact of_decide_eq_true rfl

/-- The mixed derivative of the square by its two inputs is claimed twice. -/
theorem hessian_multiplicities_square :
    ∃ (layout : Layout) (l : LoopStructure ℚ) (streams : HessianStreams),
      Layout.ofElements [(0, 0)] = .ok layout ∧ l.Multiplicities layout streams ∧
        (streams.pairs.toList.map fun (stream, claims) => (stream, claims.toList)) =
          [(⟨1, 0, none, none⟩, [(0, ⟨0, 0, 2⟩)])] := by
  have claims : (do
      let layout ← Layout.ofElements [(0, 0)]
      let l ← (⟨square ℚ, #[], #[]⟩ : Assembly ℚ).loopStructure (squareLoop ℚ) []
      let streams ← l.streams layout
      return streams.pairs.toList.map fun (stream, claims) => (stream, claims.toList)) =
        (.ok [(⟨1, 0, none, none⟩, [(0, ⟨0, 0, 2⟩)])] : Except Failure _) := by
    decide +kernel
  obtain ⟨layout, l, streams, hlayout, hstructure, hstreams, counts⟩ :=
    @Accepted.hessian_multiplicities ℚ _ (square ℚ) accepted_square ⟨square ℚ, #[], #[]⟩ rfl
      (squareLoop ℚ) (List.mem_singleton_self _) [(0, 0)] (by decide) []
  rw [bind_of_ok hlayout, bind_of_ok hstructure, bind_of_ok hstreams] at claims
  exact ⟨layout, l, streams, hlayout, counts, Except.ok.inj claims⟩

end Model

end LoopDiff
