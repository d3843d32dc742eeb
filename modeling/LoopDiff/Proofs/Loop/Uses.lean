import LoopDiff.Proofs.Loop.Contribution
import LoopDiff.Proofs.Maps

/-!
# LoopDiff.Proofs.Loop.Uses

Claims as sums of uses.

A use names a stream, an iteration, and the location that the stream is
written to there.  As long as a stream has one location at an iteration,
claims do not conflict, and all that the claimed streams send is the sum of
what the uses send one by one (`Collected`).  So what a loop computes can be
read off the uses, with no regard to how they were grouped.
-/

namespace LoopDiff

open Std (TreeMap TreeSet)

/-! ## Claims on one value -/

namespace Claims

/-- Claims after some more uses, each an iteration and a location. -/
structure Adds (claims claims' : Claims) (uses : List (Nat × Nat)) : Prop where
  claim {it : Nat} {c : Claim} : claims'[it]? = some c →
    claims[it]? = some c ∨ 0 < c.count ∧ (it, c.location) ∈ uses
  sum {R : Type} [AddCommMonoid R] (r : Nat → R) (it location : Nat) :
    total [claims'.stream r] it location = total [claims.stream r] it location +
      (uses.map fun u => if u.1 = it then sentTo location (u.2, r it) else 0).sum

variable {claims : Claims} {n it location : Nat} {pair : Nat × Nat}

theorem yields_add (free : ∀ c, claims[it]? = some c → c.location = location) :
    Yields (claims.add it location pair) () fun claims' _ => Adds claims claims' [(it, location)] := by
  obtain ⟨claims', eq, ⟨c, hc, place, count⟩, others⟩ := add_eq free
  refine yields_ok eq ⟨fun {j c'} hc' => ?_, fun r j l => ?_⟩
  · by_cases here : j = it
    · subst here
      cases hc.symm.trans hc'
      refine .inr ⟨by omega, ?_⟩
      rw [place]
      exact List.mem_singleton.mpr rfl
    · exact .inl ((others j here).symm.trans hc')
  · rw [List.map_singleton, List.sum_singleton, total_singleton, total_singleton, stream, stream]
    by_cases here : j = it
    · subst here
      rw [if_pos rfl, hc, Option.map_some, Option.elim_some, place, count]
      cases old : claims[j]? with
      | none =>
          rw [Option.map_none, Option.map_none, Option.elim_none, Option.getD_none, zero_add,
            zero_add, one_nsmul]
      | some c₀ =>
          rw [Option.map_some, Option.map_some, Option.elim_some, Option.getD_some, free c₀ old,
            sentTo, sentTo, sentTo]
          split
          · exact succ_nsmul ..
          · rw [add_zero]
    · rw [others j here, if_neg (Ne.symm here), add_zero]

theorem yields_addAll (free : ∀ (it : Nat) (c : Claim), claims[it]? = some c → c.location = location) :
    Yields (claims.addAll n location pair) () fun claims' _ =>
      Adds claims claims' ((List.range n).map fun it => (it, location)) := by
  refine Yields.mono (yields_foldlM (fun done claims' _ =>
    Adds claims claims' (done.map fun it => (it, location))) ?_ ?_) fun _ _ _ h => h
  · exact ⟨.inl, fun r it location => by simp⟩
  · intro done it rest claims' w _ _ h
    refine (yields_add fun c hc => ?_).mono fun claims'' _ _ h' => ?_
    · rcases h.claim hc with hc | ⟨-, mem⟩
      · exact free it c hc
      · obtain ⟨it', -, eq⟩ := List.mem_map.mp mem
        exact (Prod.mk.inj eq).2.symm
    · rw [List.map_append]
      refine ⟨fun {j c} hc => ?_, fun r j l => ?_⟩
      · rcases h'.claim hc with hc | ⟨count, mem⟩
        · exact (h.claim hc).imp_right fun ⟨count, mem⟩ => ⟨count, List.mem_append_left _ mem⟩
        · exact .inr ⟨count, List.mem_append_right _ mem⟩
      · rw [h'.sum, h.sum, List.map_append, List.sum_append, add_assoc]
        rfl

end Claims

/-! ## Claims on many streams -/

/-- A use of a stream at an iteration, for a location. -/
structure Use (σ : Type) where
  stream : σ
  iteration : Nat
  location : Nat
deriving DecidableEq

variable {σ : Type} [Ord σ] [Std.TransOrd σ] [Std.LawfulEqOrd σ] [DecidableEq σ]

/-- What a use sends to a location at an iteration. -/
def Use.sends {R : Type} [AddCommMonoid R] (r : σ → Nat → R) (it location : Nat) (u : Use σ) : R :=
  if u.iteration = it then sentTo location (u.location, r u.stream it) else 0

/-- What a use sends to a location over all iterations. -/
def Use.amount {R : Type} [AddCommMonoid R] (r : σ → Nat → R) (location : Nat) (u : Use σ) : R :=
  sentTo location (u.location, r u.stream u.iteration)

omit [Ord σ] [Std.TransOrd σ] [Std.LawfulEqOrd σ] [DecidableEq σ] in
theorem sum_sends {R : Type} [AddCommMonoid R] (r : σ → Nat → R) (location : Nat) {n : Nat}
    {uses : List (Use σ)} (inside : ∀ u ∈ uses, u.iteration < n) :
    ((List.range n).map fun it => (uses.map (Use.sends r it location)).sum).sum =
      (uses.map (Use.amount r location)).sum := by
  induction uses with
  | nil => simp
  | cons u uses ih =>
      have once : ((List.range n).map fun it => u.sends r it location).sum = u.amount r location := by
        have lt := inside u (List.mem_cons_self ..)
        rw [List.sum_map_eq_nsmul_single u.iteration (fun it => u.sends r it location)
          fun it ne _ => if_neg (Ne.symm ne), List.count_range, if_pos lt, one_nsmul]
        exact if_pos rfl
      simp only [List.map_cons, List.sum_cons, List.sum_map_add, once,
        ih fun u hu => inside u (List.mem_cons_of_mem _ hu)]

/-- A stream is used for one location at an iteration. -/
def OneLocation (uses : List (Use σ)) : Prop :=
  ∀ u ∈ uses, ∀ u' ∈ uses, u.stream = u'.stream → u.iteration = u'.iteration →
    u.location = u'.location

omit [Ord σ] [Std.TransOrd σ] [Std.LawfulEqOrd σ] [DecidableEq σ] in
theorem OneLocation.mono {uses uses' : List (Use σ)} (h : OneLocation uses') (sub : uses ⊆ uses') :
    OneLocation uses :=
  fun u hu u' hu' => h u (sub hu) u' (sub hu')

/-- The claims on streams are made up of uses. -/
structure Collected (uses : List (Use σ)) (streams : TreeMap σ Claims) : Prop where
  used {i : σ} {claims : Claims} : streams[i]? = some claims → ∃ u ∈ uses, u.stream = i
  claim {i : σ} {claims : Claims} {it : Nat} {c : Claim} : streams[i]? = some claims →
    claims[it]? = some c → 0 < c.count ∧ ⟨i, it, c.location⟩ ∈ uses
  sum {R : Type} [AddCommGroup R] (r : σ → Nat → R) (it location : Nat) :
    (streams.toList.map fun e => total [e.2.stream (r e.1)] it location).sum =
      (uses.map (Use.sends r it location)).sum

/-- The location that a stream is claimed for at an iteration, and how often. -/
def claimAt? (streams : TreeMap σ Claims) (i : σ) (it : Nat) : Option (Nat × Nat) :=
  (streams[i]?.bind fun claims => claims[it]?).map fun c => (c.location, c.count)

namespace Collected

variable {uses : List (Use σ)} {streams : TreeMap σ Claims}

omit [DecidableEq σ] [Std.LawfulEqOrd σ] in
theorem empty : Collected [] (∅ : TreeMap σ Claims) :=
  ⟨fun h => by simp at h, fun h => by simp at h, fun _ _ _ => rfl⟩

omit [DecidableEq σ] [Std.LawfulEqOrd σ] in
theorem claim_getD (h : Collected uses streams) {i : σ} {it : Nat} {c : Claim}
    (hc : (streams.getD i ∅)[it]? = some c) : 0 < c.count ∧ ⟨i, it, c.location⟩ ∈ uses := by
  rw [TreeMap.getD_eq_getD_getElem?] at hc
  cases hi : streams[i]? with
  | none => simp [hi] at hc
  | some claims =>
      rw [hi] at hc
      exact h.claim hi hc

/-- More uses of one stream. -/
theorem insert (h : Collected uses streams) {i : σ} {claims : Claims} {new : List (Nat × Nat)}
    (adds : Claims.Adds (streams.getD i ∅) claims new) (some : new ≠ []) :
    Collected (uses ++ new.map fun u => ⟨i, u.1, u.2⟩) (streams.insert i claims) where
  used {j claims'} hj := by
    rw [TreeMap.getElem?_insert] at hj
    split at hj
    case isTrue eq =>
        cases Std.LawfulEqOrd.eq_of_compare eq
        obtain ⟨u, hu⟩ := List.exists_mem_of_ne_nil new some
        exact ⟨_, List.mem_append_right _ (List.mem_map_of_mem hu), rfl⟩
    case isFalse =>
        obtain ⟨u, hu, eq⟩ := h.used hj
        exact ⟨u, List.mem_append_left _ hu, eq⟩
  claim {j claims' it c} hj hc := by
    rw [TreeMap.getElem?_insert] at hj
    split at hj
    case isTrue eq =>
        cases Std.LawfulEqOrd.eq_of_compare eq
        cases hj
        rcases adds.claim hc with hc | ⟨count, mem⟩
        · obtain ⟨count, mem⟩ := h.claim_getD hc
          exact ⟨count, List.mem_append_left _ mem⟩
        · exact ⟨count, List.mem_append_right _ (List.mem_map.mpr ⟨_, mem, rfl⟩)⟩
    case isFalse =>
        obtain ⟨count, mem⟩ := h.claim hj hc
        exact ⟨count, List.mem_append_left _ mem⟩
  sum {R} _ r it location := by
    have grown := sum_insert streams i claims fun e => total [e.2.stream (r e.1)] it location
    have old : ((streams[i]?).elim 0 fun old => total [old.stream (r i)] it location) =
        total [(streams.getD i ∅).stream (r i)] it location := by
      rw [TreeMap.getD_eq_getD_getElem?]
      cases streams[i]? with
      | none => simp [total_singleton, Claims.stream]
      | some old => rfl
    have sent : ((new.map fun u => (⟨i, u.1, u.2⟩ : Use σ)).map (Use.sends r it location)).sum =
        (new.map fun u => if u.1 = it then sentTo location (u.2, r i it) else 0).sum := by
      rw [List.map_map]
      rfl
    rw [old, adds.sum, h.sum, add_comm (total _ _ _), ← add_assoc] at grown
    rw [List.map_append, List.sum_append, sent]
    exact add_right_cancel grown

/-- One more use, at the location that the stream already has at the
iteration. -/
theorem yields_add (h : Collected uses streams) {i : σ} {it location : Nat} {pair : Nat × Nat}
    (free : ∀ u ∈ uses, u.stream = i → u.iteration = it → u.location = location) :
    Yields ((streams.getD i ∅).add it location pair) () fun claims _ =>
      Collected (uses ++ [⟨i, it, location⟩]) (streams.insert i claims) :=
  (Claims.yields_add fun _ hc => free _ (h.claim_getD hc).2 rfl rfl).mono fun _ _ _ adds =>
    h.insert adds (List.cons_ne_nil _ _)

/-- Uses at all iterations, for the location that the stream has at each of
them. -/
theorem yields_addAll (h : Collected uses streams) {i : σ} {n location : Nat} {pair : Nat × Nat}
    (pos : 0 < n) (free : ∀ u ∈ uses, u.stream = i → u.location = location) :
    Yields ((streams.getD i ∅).addAll n location pair) () fun claims _ =>
      Collected (uses ++ (List.range n).map fun it => ⟨i, it, location⟩)
        (streams.insert i claims) := by
  refine (Claims.yields_addAll fun it c hc => free _ (h.claim_getD hc).2 rfl).mono
    fun claims _ _ adds => ?_
  have collected := h.insert adds (by simpa using pos.ne')
  rwa [List.map_map] at collected

omit [DecidableEq σ] [Std.TransOrd σ] [Std.LawfulEqOrd σ] in
/-- The order of uses is of no account. -/
theorem perm {uses' : List (Use σ)} (h : Collected uses streams) (perm : uses.Perm uses') :
    Collected uses' streams where
  used hi := by
    obtain ⟨u, hu, eq⟩ := h.used hi
    exact ⟨u, perm.mem_iff.mp hu, eq⟩
  claim hi hc := (h.claim hi hc).imp_right perm.mem_iff.mp
  sum r it location := (h.sum r it location).trans (perm.map _).sum_eq

omit [DecidableEq σ] in
/-- The claims are at iterations and on locations of uses. -/
theorem within (h : Collected uses streams) {n k : Nat}
    (inside : ∀ u ∈ uses, u.iteration < n ∧ u.location < k) :
    ∀ e ∈ streams.toList, e.2.Within n k := by
  intro e he it c hc
  obtain ⟨count, mem⟩ := h.claim (TreeMap.mem_toList_iff_getElem?_eq_some.mp he) hc
  exact ⟨(inside _ mem).1, (inside _ mem).2, count⟩

omit [DecidableEq σ] [Std.TransOrd σ] [Std.LawfulEqOrd σ] in
/-- What the claimed streams send to a location is what the uses send
there. -/
theorem sum_total (h : Collected uses streams) {R : Type} [AddCommGroup R] {n : Nat}
    (inside : ∀ u ∈ uses, u.iteration < n) (r : σ → Nat → R) (location : Nat) :
    ((List.range n).map fun it =>
      (streams.toList.map fun e => total [e.2.stream (r e.1)] it location).sum).sum =
        (uses.map (Use.amount r location)).sum := by
  simp only [h.sum]
  exact sum_sends r location inside

omit [DecidableEq σ] [Std.TransOrd σ] [Std.LawfulEqOrd σ] in
/-- Without streams nothing is sent. -/
theorem sum_amount_of_isEmpty (h : Collected uses streams) (empty : streams.isEmpty)
    {R : Type} [AddCommGroup R] {n : Nat} (inside : ∀ u ∈ uses, u.iteration < n)
    (r : σ → Nat → R) (location : Nat) : (uses.map (Use.amount r location)).sum = 0 := by
  rw [← h.sum_total inside, List.isEmpty_iff.mp (TreeMap.isEmpty_toList.trans empty)]
  simp

/-- What a stream sends, if it stands for `1`, counts its uses. -/
theorem total_eq_count (h : Collected uses streams) (i : σ) (it location : Nat) :
    ((streams[i]?).elim 0 fun claims => total [claims.stream fun _ => (1 : ℤ)] it location) =
      uses.count ⟨i, it, location⟩ := by
  let marked (j : σ) (_ : Nat) : ℤ := if j = i then 1 else 0
  have sent := h.sum marked it location
  have others {j : σ} (claims : Claims) (apart : j ≠ i) :
      total [claims.stream (marked j)] it location = 0 := by
    rw [total_singleton, Claims.stream]
    cases claims[it]? <;> simp [sentTo, marked, apart]
  have here : (uses.map (Use.sends marked it location)).sum = uses.count ⟨i, it, location⟩ := by
    rw [List.sum_map_eq_nsmul_single ⟨i, it, location⟩]
    · simp [Use.sends, sentTo, marked]
    · rintro ⟨j, it', location'⟩ other -
      simp only [Use.sends, sentTo, marked]
      split_ifs with at_ here same <;> first | rfl | exact absurd (by simp [*]) other
  rw [← here, ← sent]
  cases hi : streams[i]? with
  | none =>
      refine (List.sum_eq_zero fun y hy => ?_).symm
      obtain ⟨⟨j, claims⟩, mem, rfl⟩ := List.mem_map.mp hy
      refine others claims ?_
      rintro rfl
      cases hi.symm.trans (TreeMap.mem_toList_iff_getElem?_eq_some.mp mem)
  | some claims =>
      rw [((perm_cons_filter hi).map _).sum_eq, List.map_cons, List.sum_cons,
        List.sum_eq_zero (l := List.map _ (List.filter _ _)), add_zero]
      · simp [marked]
      · intro y hy
        obtain ⟨⟨j, claims'⟩, mem, rfl⟩ := List.mem_map.mp hy
        exact others claims' (Ne.symm (by simpa using (List.mem_filter.mp mem).2))

/-- A claim counts the uses of its stream at its iteration. -/
theorem count_eq (h : Collected uses streams) {i : σ} {claims : Claims} {it : Nat} {c : Claim}
    (hi : streams[i]? = some claims) (hc : claims[it]? = some c) :
    c.count = uses.count ⟨i, it, c.location⟩ := by
  have counted := h.total_eq_count i it c.location
  simpa [hi, hc, total_singleton, Claims.stream, sentTo] using counted

/-- Every use is claimed. -/
theorem exists_claim (h : Collected uses streams) {u : Use σ} (hu : u ∈ uses) :
    ∃ claims c, streams[u.stream]? = some claims ∧ claims[u.iteration]? = some c ∧
      c.location = u.location := by
  have counted := h.total_eq_count u.stream u.iteration u.location
  have pos : (uses.count u : ℤ) ≠ 0 := Int.natCast_ne_zero.mpr (List.count_pos_iff.mpr hu).ne'
  cases hi : streams[u.stream]? with
  | none => exact absurd (by simpa [hi] using counted.symm) pos
  | some claims =>
      cases hc : claims[u.iteration]? with
      | none =>
          exact absurd (by simpa [hi, hc, total_singleton, Claims.stream] using counted.symm) pos
      | some c =>
          refine ⟨claims, c, rfl, hc, by_contra fun elsewhere => pos ?_⟩
          simpa [hi, hc, total_singleton, Claims.stream, sentTo, elsewhere] using counted.symm

/-- A stream is claimed for the location of its uses, as often as it is used. -/
theorem claimAt?_eq_some_iff (h : Collected uses streams) {i : σ} {it location count : Nat} :
    claimAt? streams i it = some (location, count) ↔
      0 < count ∧ uses.count ⟨i, it, location⟩ = count := by
  simp only [claimAt?, Option.map_eq_some_iff, Option.bind_eq_some_iff, Prod.mk.injEq]
  constructor
  · rintro ⟨c, ⟨claims, hi, hc⟩, rfl, rfl⟩
    exact ⟨(h.claim hi hc).1, (h.count_eq hi hc).symm⟩
  · rintro ⟨pos, rfl⟩
    obtain ⟨claims, c, hi, hc, rfl⟩ := h.exists_claim (List.count_pos_iff.mp pos)
    exact ⟨c, ⟨claims, hi, hc⟩, rfl, h.count_eq hi hc⟩

/-- A stream is claimed somewhere if it is used. -/
theorem mem_iff (h : Collected uses streams) {i : σ} : i ∈ streams ↔ ∃ u ∈ uses, u.stream = i := by
  rw [TreeMap.mem_iff_isSome_getElem?, Option.isSome_iff_exists]
  constructor
  · rintro ⟨claims, hi⟩
    exact h.used hi
  · rintro ⟨u, hu, rfl⟩
    obtain ⟨claims, -, hi, -⟩ := h.exists_claim hu
    exact ⟨claims, hi⟩

omit [Ord σ] [Std.TransOrd σ] [Std.LawfulEqOrd σ] [DecidableEq σ] in
theorem sum_amount_eq_zero {R : Type} [AddCommMonoid R] {uses : List (Use σ)} {location : Nat}
    (free : ∀ u ∈ uses, u.location ≠ location) (r : σ → Nat → R) :
    (uses.map (Use.amount r location)).sum = 0 := by
  refine List.sum_eq_zero fun y hy => ?_
  obtain ⟨u, hu, rfl⟩ := List.mem_map.mp hy
  exact if_neg (free u hu)

end Collected

/-! ## Contributions -/

section

variable {F R : Type} [Scalar F] [Elementary R] [Reading F R] {inputs : List (Array F)}
  {n base k : Nat} {a : Arena F} {s : LoopScope} {c : Content R}

open LoopScope Arena

omit [DecidableEq σ] in
/-- Contributions send what the uses of their streams send. -/
theorem LoopScope.Body.ends_contributeUses (body : s.Body a (.numbers inputs) n base true c)
    {uses : List (Use σ)} {streams : TreeMap σ Claims} (collected : Collected uses streams)
    (inside : ∀ u ∈ uses, u.iteration < n ∧ u.location < k) (room : k * n < 0x8000000000000000)
    {value : σ → Recording F (Value F)} {r : σ → Nat → R}
    (values : ∀ u ∈ uses, u.stream ∈ streams.keys → ∀ a', a.Keeps (Inside base) a' →
      Yields (value u.stream) a' fun v a'' =>
        ∀ it < n, a''.Means inputs (some it) v (r u.stream it)) :
    Ends (streams.toList.foldlM (fun (s : LoopScope) (stream, claims) => do
      s.contribute claims (← value stream)) s) a fun s' a' =>
        a.Keeps (Inside base) a' ∧ ∃ c', s'.Body a' (.numbers inputs) n base true c' ∧ ∀ location,
          sent n c'.streams location =
            sent n c.streams location + (uses.map (Use.amount r location)).sum := by
  refine (body.ends_contributeAll (collected.within inside) room (r := r) ?_).mono ?_
  · intro e he a' keeps
    have here := TreeMap.mem_toList_iff_getElem?_eq_some.mp he
    obtain ⟨u, hu, eq⟩ := collected.used here
    have key : e.1 ∈ streams.keys := by
      rw [TreeMap.mem_keys, TreeMap.mem_iff_isSome_getElem?, here]
      rfl
    exact eq ▸ values u hu (eq ▸ key) a' keeps
  · rintro s' a' ⟨keeps, c', body', totals⟩
    refine ⟨keeps, c', body', fun location => ?_⟩
    rw [← collected.sum_total (fun u hu => (inside u hu).1), sent, sent, ← List.sum_map_add]
    refine congrArg List.sum (List.map_congr_left fun it hit => ?_)
    exact totals it (List.mem_range.mp hit) location

end

end LoopDiff
