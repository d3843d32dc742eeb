import LoopDiff.Proofs.Assembly.Multiplicity
import LoopDiff.Proofs.Model.Curvature

/-!
# LoopDiff.Proofs.Assembly.Amounts

What the streams of a Hessian amount to.

The streams of two inputs, at an iteration, send to the location of an element
the second derivative by the two inputs, times what their chains go on with.
The independents behind an input make up its derivatives
(`LoopStructure.IsOf.sum_behind`), so these are the terms of the chain rule, and
the streams of a loop send to every location what the loop contributes to the
second derivative there (`LoopStructure.IsOf.sum_uses`).

One kind of term can be missing.  Of several non-indexed inputs that read the same
independent a temporary meets only the last, which shadows the others.  So it is
assumed that no temporary meets a shadowed input (`Loop.Unshadowed`).
-/

namespace LoopDiff

open Std (TreeMap TreeSet)

/-! ## Shadowed inputs -/

theorem lastIdx?_concat (x y : Nat) (xs : List Nat) :
    lastIdx? x (xs ++ [y]) = if y = x then some xs.length else lastIdx? x xs := by
  rw [lastIdx?, List.zipIdx_append, List.reverse_append, List.zipIdx_singleton,
    List.reverse_singleton, List.singleton_append, List.findSome?_cons, Nat.zero_add]
  by_cases eq : y = x <;> simp [eq, lastIdx?]

/-- The last position of an element is found. -/
theorem lastIdx?_eq {xs : List Nat} {x i : Nat} (here : xs[i]? = some x)
    (last : ∀ i', i < i' → xs[i']? ≠ some x) : lastIdx? x xs = some i := by
  induction xs using List.reverseRecOn with
  | nil => cases here
  | append_singleton xs y ih =>
      rw [lastIdx?_concat]
      have lt := (List.getElem?_eq_some_iff.mp here).1
      rw [List.length_append, List.length_singleton] at lt
      rcases Nat.lt_succ_iff_lt_or_eq.mp lt with lt | rfl
      · rw [if_neg]
        · rw [List.getElem?_append_left lt] at here
          refine ih here fun i' h' at_ => last i' h' ?_
          rw [List.getElem?_append_left (List.getElem?_eq_some_iff.mp at_).1, at_]
        · rintro rfl
          exact last xs.length lt (by simp)
      · rw [if_pos (by simpa using here)]

namespace Loop

variable {F : Type} {l : Loop F}

/-- A non-indexed input is shadowed if a later one reads the same
independent. -/
def Shadowed (l : Loop F) (q : Nat) : Prop :=
  ∃ i i' j, i < i' ∧ l.nonIndexed[i]? = some j ∧ l.nonIndexed[i']? = some j ∧
    q = l.indexed.length + i

/-- No temporary meets a shadowed input. -/
def Unshadowed (l : Loop F) : Prop :=
  ∀ p q, l.tape.Meet l.tape.outputs p q → l.isTemporary p = true → ¬l.Shadowed q

theorem unshadowed_of_nodup (nodup : l.nonIndexed.Nodup) : l.Unshadowed := by
  rintro p q - - ⟨i, i', j, lt, here, there, -⟩
  have lt' := (List.getElem?_eq_some_iff.mp there).1
  exact List.nodup_iff_getElem?_ne_getElem?.mp nodup i i' lt lt' (here.trans there.symm)

/-- The search by the independent of an input that is not shadowed finds this
input. -/
theorem Valid.nonIndexed?_eq (valid : l.Valid) {q it : Nat} (lt : q < l.tape.inputCount)
    (indexed : l.isIndexed q = false) (temporary : l.isTemporary q = false)
    (last : ¬l.Shadowed q) : (l.independentAt? q it).bind l.nonIndexed? = some q := by
  have inputs := valid.inputs
  simp only [isIndexed, decide_eq_false_iff_not, not_lt] at indexed
  have before : q < l.temporaryOffset := by simpa [isTemporary, lt] using temporary
  rw [temporaryOffset] at before
  have here := List.getElem?_eq_getElem (show q - l.indexed.length < l.nonIndexed.length by omega)
  rw [independentAt?, List.getElem?_eq_none indexed]
  simp only [here, Option.bind_some, nonIndexed?]
  rw [lastIdx?_eq here fun i' lt there => last ⟨_, i', _, lt, here, there, by omega⟩,
    Option.map_some, Nat.add_sub_cancel' indexed]

end Loop

namespace LoopStructure

variable {F : Type} {s : LoopStructure F} {p q : Nat}

theorem meetsTemporary_eq_true (valid : s.loop.Valid) (lt : q < s.loop.tape.inputCount)
    (last : ¬s.loop.Shadowed q) : s.meetsTemporary q = true := by
  rw [meetsTemporary]
  cases indexed : s.loop.isIndexed q with
  | true => rfl
  | false =>
      cases temporary : s.loop.isTemporary q with
      | true => rfl
      | false =>
          rw [valid.nonIndexed?_eq lt indexed temporary last]
          exact beq_self_eq_true (some q)

/-- Without shadowed inputs every pair of the pattern contributes. -/
theorem contributes_eq_true (valid : s.loop.Valid) (wf : s.loop.tape.WellFormed)
    (unshadowed : s.loop.Unshadowed) (meet : s.loop.tape.Meet s.loop.tape.outputs p q) :
    s.contributes p q = true := by
  obtain ⟨hp, hq⟩ := wf.meet_lt meet
  have side {p q : Nat} (lt : q < s.loop.tape.inputCount)
      (meet : s.loop.tape.Meet s.loop.tape.outputs p q) :
      (!s.loop.isTemporary p || s.meetsTemporary q) = true := by
    cases temporary : s.loop.isTemporary p with
    | false => rfl
    | true => exact meetsTemporary_eq_true valid lt (unshadowed p q meet temporary)
  rw [contributes, side hq meet, side hp meet.symm]
  rfl

end LoopStructure

/-! ## Values of streams -/

variable {F R : Type} [Scalar F] [Elementary R] [Embeds F R] {m : Model F} {l : Loop F}
  {x ω : Nat → R}

namespace Assembly

/-- The derivative that a side of a stream goes on with. -/
def chainAt (m : Model F) (l : Loop F) (x : Nat → R) (input : Nat) (chain : Option Nat)
    (it : Nat) : R :=
  chain.elim 1 fun j => m.inputPartial l x it j input

/-- What a pair stream stands for. -/
def pairAt (m : Model F) (l : Loop F) (x ω : Nat → R) (s : PairStream) (it : Nat) : R :=
  m.loopSecond l x ω it s.hi s.lo * chainAt m l x s.hi s.chainHi it * chainAt m l x s.lo s.chainLo it

/-- What a stream with a second derivative of a temporary stands for. -/
def secondAt (m : Model F) (l : Loop F) (x ω : Nat → R) (s : SecondStream) (it : Nat) : R :=
  m.loopPartial l x ω it s.input * m.inputSecond l x it s.row s.col s.input

end Assembly

namespace LoopStructure

open Assembly

variable {s : LoopStructure F} {rows : List (TreeMap Nat (Value F))} {layout : Layout}
  {elements : List (Nat × Nat)} {p q it r c k : Nat}

/-! ## Pairs of inputs -/

/-- The value of the stream of two inputs, in either order. -/
theorem pairAt_ofInputs [PowerRule R] (wf : l.tape.WellFormed) (hp : p < l.tape.inputCount)
    (chainP chainQ : Option Nat) : pairAt m l x ω (.ofInputs p q chainP chainQ) it =
      chainAt m l x p chainP it * (chainAt m l x q chainQ it * m.loopSecond l x ω it p q) := by
  rw [PairStream.ofInputs]
  split
  · rw [pairAt]
    ring
  · rw [pairAt, m.loopSecond_symm wf x ω it hp]
    ring

/-- What is known of the derivatives of the temporaries that are not found. -/
def ZeroOutside (m : Model F) (l : Loop F) (x : Nat → R) (rows : List (TreeMap Nat (Value F))) :
    Prop :=
  ∀ q t j, l.temporaryOf? q = some t → (rows.getD t ∅)[j]? = none → m.temporaryPartial x j t = 0

/-- The independents behind an input tell its derivatives. -/
theorem IsOf.sum_behind (isOf : s.IsOf m l rows) (zero : ZeroOutside m l x rows) (q it r : Nat) :
    ((s.behind q it).map fun e => if e.1 = r then chainAt m l x q e.2 it else 0).sum =
      m.inputPartial l x it r q := by
  rw [behind, isOf.dependencies, isOf.loop]
  cases ht : l.temporaryOf? q with
  | some t =>
      rw [Option.map_some, List.map_map]
      refine (sum_map_ite_eq (nodup_toList _) r fun j => m.inputPartial l x it j q).trans ?_
      rw [ite_eq_left_iff, Model.inputPartial_eq, ht]
      intro absent
      refine (zero q t r ht ?_).symm
      simpa using absent
  | none =>
      rw [Option.map_none, Model.inputPartial_eq, ht]
      cases l.independentAt? q it with
      | none => simp
      | some j => simp [chainAt]

/-- What two inputs amount to for an element at an iteration. -/
theorem IsOf.sum_streamsAt [PowerRule R] (isOf : s.IsOf m l rows)
    (zero : ZeroOutside m l x rows) (wf : l.tape.WellFormed) (hp : p < l.tape.inputCount)
    (layoutOf : layout.IsOf elements) (hk : layout.computed[(r, c)]? = some k) (it : Nat) :
    ((s.streamsAt layout p q it).map fun e => sentTo k (e.2, pairAt m l x ω e.1 it)).sum =
      m.inputPartial l x it r p * (m.inputPartial l x it c q * m.loopSecond l x ω it p q) := by
  have sent (e e' : Nat × Option Nat) :
      ((layout.computed[(e.1, e'.1)]?).map fun location =>
        (PairStream.ofInputs p q e.2 e'.2, location)).elim 0
          (fun e => sentTo k (e.2, pairAt m l x ω e.1 it)) =
        (if e.1 = r then chainAt m l x p e.2 it else 0) *
          ((if e'.1 = c then chainAt m l x q e'.2 it else 0) * m.loopSecond l x ω it p q) := by
    by_cases here : (e.1, e'.1) = (r, c)
    · obtain ⟨rfl, rfl⟩ := Prod.mk.inj here
      rw [hk, Option.map_some, Option.elim_some, sentTo, if_pos rfl, if_pos rfl, if_pos rfl,
        pairAt_ofInputs wf hp]
    · have elsewhere : layout.computed[(e.1, e'.1)]? ≠ some k := fun hk' =>
        here (layoutOf.computed_inj hk' hk)
      have left : ((layout.computed[(e.1, e'.1)]?).map fun location =>
          (PairStream.ofInputs p q e.2 e'.2, location)).elim 0
            (fun e => sentTo k (e.2, pairAt m l x ω e.1 it)) = 0 := by
        cases hk' : layout.computed[(e.1, e'.1)]? with
        | none => rfl
        | some k' => exact if_neg fun eq => elsewhere (hk'.trans (congrArg some eq))
      rw [left]
      by_cases row : e.1 = r
      · rw [if_neg fun col => here (Prod.ext row col), zero_mul, mul_zero]
      · rw [if_neg row, zero_mul]
  rw [streamsAt, sum_map_flatMap]
  simp only [sum_map_filterMap, sent, List.sum_map_mul_left, List.sum_map_mul_right,
    isOf.sum_behind zero]

/-- What the pairs of inputs amount to for an element. -/
theorem IsOf.sum_pairUses [PowerRule R] (isOf : s.IsOf m l rows)
    (zero : ZeroOutside m l x rows) (valid : l.Valid) (wf : l.tape.WellFormed)
    (unshadowed : l.Unshadowed) (layoutOf : layout.IsOf elements)
    (hk : layout.computed[(r, c)]? = some k) :
    ((s.sparsity.toList.flatMap (s.pairUses layout)).map (Use.amount (pairAt m l x ω) k)).sum =
      ∑ it ∈ Finset.range l.iterations, ∑ p ∈ Finset.range l.tape.inputCount,
        ∑ q ∈ Finset.range l.tape.inputCount,
          m.inputPartial l x it r p * m.inputPartial l x it c q * m.loopSecond l x ω it p q := by
  have pair {e : Nat × Nat} (he : e ∈ s.sparsity) :
      ((s.pairUses layout e).map (Use.amount (pairAt m l x ω) k)).sum =
        ∑ it ∈ Finset.range l.iterations,
          m.inputPartial l x it r e.1 * m.inputPartial l x it c e.2 *
            m.loopSecond l x ω it e.1 e.2 := by
    have meet := (isOf.sparsity e.1 e.2).mp he
    have contributes : s.contributes e.1 e.2 = true := by
      have := isOf.loop
      subst this
      exact contributes_eq_true valid wf unshadowed meet
    rw [pairUses, if_pos contributes, sum_map_flatMap, isOf.loop]
    show ((List.range l.iterations).map _).sum = ((List.range l.iterations).map _).sum
    refine congrArg List.sum (List.map_congr_left fun it _ => ?_)
    rw [usesAt, List.map_map, mul_assoc]
    exact isOf.sum_streamsAt zero wf (wf.meet_lt meet).1 layoutOf hk it
  rw [sum_map_flatMap, List.map_congr_left fun e he => pair (TreeSet.mem_toList.mp he)]
  refine (sum_pairs (f := fun p q => ∑ it ∈ Finset.range l.iterations,
    m.inputPartial l x it r p * m.inputPartial l x it c q * m.loopSecond l x ω it p q)
    (fun p q he => wf.meet_lt ((isOf.sparsity p q).mp he)) fun p q free => ?_).trans ?_
  · refine Finset.sum_eq_zero fun it _ => ?_
    rw [Model.loopSecond_eq_zero wf x ω it fun meet => free ((isOf.sparsity p q).mpr meet),
      mul_zero]
  · exact (Finset.sum_congr rfl fun p _ => Finset.sum_comm).trans Finset.sum_comm

/-! ## Second derivatives of temporaries -/

omit [Scalar F] [Embeds F R] in
/-- What a temporary input amounts to for an element. -/
theorem sum_secondUses (layoutOf : layout.IsOf elements)
    (hk : layout.computed[(r, c)]? = some k) (v : SecondStream → Nat → R) (e : Nat × PairSet) :
    ((s.secondUses layout e).map (Use.amount v k)).sum =
      if (r, c) ∈ e.2 then ∑ it ∈ Finset.range s.loop.iterations, v ⟨e.1, r, c⟩ it else 0 := by
  have pair (e' : Nat × Nat) :
      (((layout.computed[(e'.1, e'.2)]?).elim [] fun location =>
        (List.range s.loop.iterations).map fun it =>
          (⟨⟨e.1, e'.1, e'.2⟩, it, location⟩ : Use SecondStream)).map (Use.amount v k)).sum =
        if e' = (r, c) then ∑ it ∈ Finset.range s.loop.iterations, v ⟨e.1, e'.1, e'.2⟩ it else 0 := by
    cases hk' : layout.computed[e']? with
    | none =>
        rw [if_neg]
        · rfl
        · rintro rfl
          cases hk.symm.trans hk'
    | some k' =>
        rw [Option.elim_some, List.map_map]
        by_cases here : e' = (r, c)
        · subst here
          cases hk.symm.trans hk'
          rw [if_pos rfl]
          exact congrArg List.sum (List.map_congr_left fun it _ => if_pos rfl)
        · rw [if_neg here]
          refine List.sum_eq_zero fun y hy => ?_
          obtain ⟨it, -, rfl⟩ := List.mem_map.mp hy
          exact if_neg fun eq => here (layoutOf.computed_inj (hk'.trans (congrArg some eq)) hk)
  rw [secondUses, sum_map_flatMap]
  simp only [pair]
  rw [sum_map_ite_eq (nodup_toList e.2)]
  simp

/-- What the temporary inputs amount to for an element. -/
theorem IsOf.sum_curved [PowerRule R] (isOf : s.IsOf m l rows) (accepted : m.Accepted)
    (hl : l ∈ m.loops) (distinct : (s.curved.map Prod.fst).Nodup)
    (layoutOf : layout.IsOf elements) (hk : layout.computed[(r, c)]? = some k) :
    ((s.curved.flatMap (s.secondUses layout)).map (Use.amount (secondAt m l x ω) k)).sum =
      ∑ it ∈ Finset.range l.iterations, ∑ p ∈ Finset.range l.tape.inputCount,
        m.inputSecond l x it r c p * m.loopPartial l x ω it p := by
  have wf := accepted.loopTape hl
  have curved {e : Nat × PairSet} (he : e ∈ s.curved) :
      ((s.secondUses layout e).map (Use.amount (secondAt m l x ω) k)).sum =
        ∑ it ∈ Finset.range l.iterations, secondAt m l x ω ⟨e.1, r, c⟩ it := by
    rw [sum_secondUses layoutOf hk, isOf.loop, ite_eq_left_iff]
    intro absent
    obtain ⟨o, t, ho, ht, meets⟩ := isOf.curved he
    refine (Finset.sum_eq_zero fun it _ => ?_).symm
    rw [secondAt, Model.inputSecond_eq, ht, Option.elim_some, accepted.temporarySecond_eq_zero,
      mul_zero]
    intro o' ho' meet
    cases ho.symm.trans ho'
    exact absent ((meets r c).mpr meet)
  have zero (q : Nat) (free : q ∉ s.curved.map Prod.fst) :
      (∑ it ∈ Finset.range l.iterations, secondAt m l x ω ⟨q, r, c⟩ it) = 0 := by
    refine Finset.sum_eq_zero fun it _ => ?_
    rw [secondAt, Model.inputSecond_eq]
    cases ht : l.temporaryOf? q with
    | none => rw [Option.elim_none, mul_zero]
    | some t =>
        by_cases used : ∃ out ∈ l.tape.outputs, l.tape.DependsOn out q
        · rw [Option.elim_some, accepted.temporarySecond_eq_zero, mul_zero]
          intro o ho
          obtain ⟨pattern, mem⟩ := isOf.listed ho ht used
          exact absurd (List.mem_map_of_mem (f := Prod.fst) mem) free
        · rw [Model.loopPartial_eq_zero wf x ω it used, zero_mul]
  have inside (q : Nat) (hq : q ∈ s.curved.map Prod.fst) :
      q ∈ Finset.range l.tape.inputCount := by
    obtain ⟨e, he, rfl⟩ := List.mem_map.mp hq
    obtain ⟨o, t, -, ht, -⟩ := isOf.curved he
    exact Finset.mem_range.mpr ((accepted.loop hl).temporaryInput_lt ht)
  rw [sum_map_flatMap, List.map_congr_left fun e he => curved he]
  refine Eq.trans ?_ ((sum_map_of_nodup distinct inside zero).trans ?_)
  · rw [List.map_map]
    rfl
  · rw [Finset.sum_comm]
    exact Finset.sum_congr rfl fun it _ => Finset.sum_congr rfl fun p _ => mul_comm ..

/-- What the streams of a loop amount to for an element is what the loop
contributes to the second derivative there. -/
theorem IsOf.sum_uses [PowerRule R] (isOf : s.IsOf m l rows) (accepted : m.Accepted)
    (hl : l ∈ m.loops) (distinct : (s.curved.map Prod.fst).Nodup)
    (zero : ZeroOutside m l x rows) (unshadowed : l.Unshadowed) (layoutOf : layout.IsOf elements)
    (hk : layout.computed[(r, c)]? = some k) :
    ((s.sparsity.toList.flatMap (s.pairUses layout)).map (Use.amount (pairAt m l x ω) k)).sum +
        ((s.curved.flatMap (s.secondUses layout)).map (Use.amount (secondAt m l x ω) k)).sum =
      ∑ it ∈ Finset.range l.iterations, m.curvatureAt l x ω r c it := by
  rw [isOf.sum_pairUses zero (accepted.loop hl) (accepted.loopTape hl) unshadowed layoutOf hk,
    isOf.sum_curved accepted hl distinct layoutOf hk, ← Finset.sum_add_distrib]
  rfl

end LoopStructure

end LoopDiff
