import LoopDiff.Proofs.Loop.Scope

/-!
# LoopDiff.Proofs.Loop.Contribution

What a contribution to a loop adds.

A value that is claimed at some iterations is one more stream of the loop:
at each of them it goes to the location of the claim, as many times as it is
claimed (`Claims.stream`).  A contribution adds this stream, whether it is
placed in one write, in the branches of a new conditional, or in those of a
conditional with the same partition (`LoopScope.Body.ends_contribute`).
-/

namespace LoopDiff

open Std (TreeMap TreeSet)

variable {F R : Type}

namespace Claims

/-- Claims at iterations below `n` on locations below `k`. -/
def Within (claims : Claims) (n k : Nat) : Prop :=
  ∀ (it : Nat) (c : Claim), claims[it]? = some c → it < n ∧ c.location < k ∧ 0 < c.count

/-- What is sent where if a value that stands for `r` is written at its
claims. -/
def stream [AddCommMonoid R] (claims : Claims) (r : Nat → R) : Stream R :=
  fun it => (claims[it]?).map fun c => (c.location, c.count • r it)

end Claims

variable [Scalar F] {M : Meaning F R} {n base k : Nat} {claims : Claims} {v : Value F}
  {f : Stream R}

namespace LoopScope

open Arena

variable {a a' : Arena F} {s : LoopScope} {c : Content R} {add : Bool}

/-! ## The writes of a contribution -/

/-- What writing a value at its claims amounts to: repeated as often as an
iteration claims it, the value can be recorded for what a stream has there. -/
structure Amounts (a : Arena F) (M : Meaning F R) (claims : Claims) (v : Value F)
    (f : Stream R) : Prop where
  repeated {count : Nat} {a' : Arena F} : 0 < count → a ≤ a' →
    Yields (repeated v count : Recording F (Value F)) a' fun w a'' =>
      a''.Fits .indexedWrite [w] ∧ ∀ (it : Nat) (c : Claim), claims[it]? = some c →
        c.count = count → ∃ r, f it = some (c.location, r) ∧ M.holds a'' it w r
  nothing {it : Nat} : claims[it]? = none → f it = none

omit [Scalar F] in
/-- A pattern that is detected behind a table. -/
theorem Body.yields_detect (h : s.Body a M n base add c) {table : TreeMap Nat Nat}
    (room : k * n < 0x8000000000000000)
    (within : ∀ it v, table[it]? = some v → it < n ∧ v < k) :
    Yields (s.detect table : Recording F Nat) a fun p a' => ∀ it v, table[it]? = some v →
      ((a'.pattern? p).bind fun q => q.eval it) = some v := by
  obtain ⟨p, detected⟩ := Pattern.detect?_isSome room within
  refine yields_present_bind detected ((h.yields_pattern p).mono ?_)
  intro i a' _ eval it v hv
  obtain ⟨hit, hv'⟩ := within it v hv
  rw [eval it hit]
  refine Pattern.eval_of_detect? detected (fun it v hv => ?_) hv
  obtain ⟨hit, hv⟩ := within it v hv
  have left : k ≤ k * n := Nat.le_mul_of_pos_right k (by omega)
  have right : n ≤ k * n := Nat.le_mul_of_pos_left n (by omega)
  omega

/-- A write for each part of the partition of some claims. -/
def WritesParts (a : Arena F) (M : Meaning F R) (claims : Claims) (f : Stream R)
    (ws : List NodeRef) : Prop :=
  List.Forall₂ (fun (part : Part) w => a.IsWrite w ∧ ∀ it location, part.2[it]? = some location →
    ∃ y, f it = some y ∧ a.WritesAt M true w it y) (parts (groups claims)) ws

theorem Body.yields_partWrites (h : s.Body a M n base true c) (within : claims.Within n k)
    (room : k * n < 0x8000000000000000) (amounts : Amounts a M claims v f) :
    Yields (s.partWrites v (parts (groups claims)) : Recording F (List NodeRef)) a fun ws a' =>
      WritesParts a' M claims f ws := by
  refine yields_mapM (fun part w a₁ a₂ le hw => ?_) fun part hpart a' le => ?_
  · refine ⟨hw.1.keep le fun _ _ _ => trivial, fun it location hl => ?_⟩
    obtain ⟨y, hy, at_⟩ := hw.2 it location hl
    exact ⟨y, hy, at_.extend le⟩
  · have group := mem_parts.mp hpart
    have inside (it location : Nat) (hl : part.2[it]? = some location) :
        it < n ∧ location < k := by
      obtain ⟨c, hc, -, rfl⟩ := (mem_group group).mp hl
      exact ⟨(within it c hc).1, (within it c hc).2.1⟩
    have counted : 0 < part.1 := by
      obtain ⟨it, c, hc, count⟩ := exists_of_group group
      exact count ▸ (within it c hc).2.2
    have h' := h.extend le
    refine Yields.bind (amounts.repeated counted le) ?_
    rintro w a₁ le₁ ⟨fits, hw⟩
    refine Yields.bind ((h'.extend le₁).yields_detect room inside) ?_
    intro p a₂ le₂ eval
    refine ((h'.extend (le₁.trans le₂)).yields_writeNode (fits.keep le₂)).mono ?_
    rintro w' a₃ - ⟨-, isWrite, at_⟩
    refine ⟨isWrite, fun it location hl => ?_⟩
    obtain ⟨c, hc, count, rfl⟩ := (mem_group group).mp hl
    obtain ⟨r, hr, holds⟩ := hw it c hc count
    exact ⟨_, hr, at_ it (c.location, r) (M.extend le₂ holds) (eval it c.location hl)⟩

/-! ## Placing a value in branches -/

section

variable {bs : List Branch} {ws : List NodeRef}
  (partition : bs.map Branch.iterations = partitionOf (parts (groups claims)))

include partition

omit [Scalar F] in
/-- In its branch, a claimed value is written where it is claimed. -/
theorem WritesParts.stream (h : WritesParts a M claims f ws) {i : Nat} {b : Branch}
    {w : NodeRef} (hb : bs[i]? = some b) (hw : ws[i]? = some w) {it : Nat}
    (mem : it ∈ b.iterations) : ∃ y, f it = some y ∧ a.WritesAt M true w it y := by
  obtain ⟨part, hpart, -, at_⟩ := exists_left_of_forall₂ h hw
  have keys : part.2.keys = b.iterations := by
    have eq := congrArg (·[i]?) partition
    simp only [partitionOf, List.getElem?_map, hb, hpart, Option.map_some] at eq
    exact (Option.some.inj eq).symm
  rw [← keys, TreeMap.mem_keys, TreeMap.mem_iff_isSome_getElem?, Option.isSome_iff_exists] at mem
  obtain ⟨location, hl⟩ := mem
  exact at_ it location hl

omit [Scalar F] in
/-- An iteration without a branch is not claimed. -/
theorem not_claimed {it : Nat} (free : ∀ b ∈ bs, it ∉ b.iterations) : claims[it]? = none := by
  cases hc : claims[it]? with
  | none => rfl
  | some c =>
      obtain ⟨m, hm, hl⟩ := exists_group hc
      have mem : m.keys ∈ bs.map Branch.iterations := by
        rw [partition]
        exact List.mem_map.mpr ⟨(c.count, m), mem_parts.mpr hm, rfl⟩
      obtain ⟨b, hb, eq⟩ := List.mem_map.mp mem
      refine absurd ?_ (free b hb)
      rw [eq, TreeMap.mem_keys, TreeMap.mem_iff_isSome_getElem?, hl]
      rfl

end

/-- A value goes to the branches of a conditional. -/
theorem Body.ends_inBranches (h : s.Body a M n base true c) (within : claims.Within n k)
    (room : k * n < 0x8000000000000000) (amounts : Amounts a M claims v f)
    {it₀ : Nat} {c₀ : Claim} (claimed : claims[it₀]? = some c₀) :
    Ends (place.inBranches s v (groups claims) : Recording F (LoopScope × Placed F)) a
      fun p a' => a.Keeps (Inside base) a' ∧ ∃ endIf c', p.2 = .conditional endIf ∧
        (p.1.addResult endIf).Body a' M n base true c' ∧
        c'.streams.Perm (f :: c.streams) := by
  rw [place.inBranches]
  refine Worlds.Ends.bind (h.yields_partWrites within room amounts) ?_
  rintro ws a₁ ⟨le₁, written⟩
  have h₁ := h.extend le₁
  have len : (partitionOf (parts (groups claims))).length = ws.length := by
    rw [partitionOf, List.length_map]
    exact written.length_eq
  have hw : ∀ w ∈ ws, a₁.IsWrite w := by
    intro w hw
    obtain ⟨i, hi⟩ := List.mem_iff_getElem?.mp hw
    obtain ⟨part, -, isWrite, -⟩ := exists_left_of_forall₂ written hi
    exact isWrite
  cases found : s.skeletons.lookup (partitionOf (parts (groups claims))) with
  | some sk =>
      obtain ⟨l₁, l₂, split, -⟩ := List.lookup_eq_some_iff.mp found
      rw [h.skeletons, List.map_eq_append_iff] at split
      obtain ⟨es₁, es₂, here, -, tail⟩ := split
      obtain ⟨e, es₂, rfl, eq, -⟩ := List.map_eq_cons_iff.mp tail
      obtain ⟨partition, rfl⟩ := Prod.mk.inj eq
      have mem : e ∈ c.conditionals := by simp [here]
      have iterations := (h.partition mem).trans partition
      refine Worlds.Ends.bind (h₁.ends_fill here (f := f) ?_ hw ?_ ?_) ?_
      · rw [← len, ← iterations, List.length_map]
      · intro i b w hb hw it mem _
        exact written.stream iterations hb hw mem
      · exact fun it _ free => amounts.nothing (not_claimed iterations free)
      rintro _ a₂ ⟨keeps, results', body⟩
      refine ends_pure ⟨(keeps_of_le le₁).trans keeps, _, _, rfl, body, ?_⟩
      rw [Content.streams_eq, Content.streams_eq, here]
      have eq : c.writes.map Prod.snd ++ (es₁ ++ { e with
            results := results', streams := e.streams ++ [f] } :: es₂).flatMap
              Filled.streams =
          (c.writes.map Prod.snd ++ es₁.flatMap Filled.streams ++ e.streams) ++
            f :: es₂.flatMap Filled.streams := by
        simp
      rw [eq]
      refine List.perm_middle.trans (List.Perm.of_eq ?_)
      simp
  | none =>
      obtain ⟨mi, hi, kind⟩ := h₁.index
      have part {l : List Nat} (hl : l ∈ partitionOf (parts (groups claims))) :
          ∃ p ∈ parts (groups claims), p.2.keys = l := List.mem_map.mp hl
      refine Worlds.Ends.bind (yields_newConditional hi kind h.iterations h.small ?_ len ?_ ?_
        (disjoint_partition claims) hw) ?_
      · obtain ⟨m, hm, -⟩ := exists_group claimed
        have there : (c₀.count, m) ∈ parts (groups claims) := mem_parts.mpr hm
        exact List.ne_nil_of_mem (List.mem_map_of_mem there)
      · intro l hl
        obtain ⟨p, -, rfl⟩ := part hl
        exact TreeMap.nodup_keys
      · intro l hl it hit
        obtain ⟨p, hp, rfl⟩ := part hl
        obtain ⟨c, hc, -⟩ := (mem_keys_part hp).mp hit
        exact (within it c hc).1
      rintro sk a₂ ⟨le₂, results, conditional, iterations, extended, new, newEnd⟩
      let e : Filled R := ⟨partitionOf (parts (groups claims)), sk, results, [f]⟩
      have sends : a₂.Sends M n true e.skeleton e.results e.streams := by
        refine ⟨conditional, fun {i b} hb => ?_, fun {g it} hg _ free => ?_⟩
        · have lt := (List.getElem?_eq_some_iff.mp hb).1
          rw [← iterations, List.length_map] at len
          obtain ⟨w, hw⟩ : ∃ w, ws[i]? = some w := ⟨_, List.getElem?_eq_getElem (len ▸ lt)⟩
          obtain ⟨r', hr', guards⟩ := extended.one_more hb hw
          change List.Forall₂ _ (results.getD i []) [f]
          rw [List.getD_eq_getElem?_getD, hr', Option.getD_some]
          refine .cons ⟨w, guards, fun it mem _ => ?_⟩ .nil
          obtain ⟨y, hy, at_⟩ := written.stream iterations hb hw mem
          exact ⟨y, hy, at_.extend le₂⟩
        · cases List.mem_singleton.mp hg
          exact amounts.nothing (not_claimed iterations free)
      refine ends_pure ⟨keeps_of_le (le₁.trans le₂), _, c.addConditional e, rfl,
        h₁.addConditional le₂ sends iterations ?_, ?_⟩
      · rintro i (rfl | ⟨b, hb, rfl⟩)
        · exact newEnd
        · exact new b hb
      · rw [Content.streams, Content.emitted_addConditional, List.flatMap_append]
        exact List.perm_append_comm

/-- One write is enough for a value that is claimed everywhere, as often at
each iteration. -/
theorem Body.yields_everywhere (h : s.Body a M n base true c) (within : claims.Within n k)
    (room : k * n < 0x8000000000000000) (amounts : Amounts a M claims v f)
    {count : Nat} {locations : TreeMap Nat Nat}
    (single : (groups claims).toList = [(count, locations)]) (all : locations.size = n) :
    Yields (do
      let w ← repeated v count
      s.write w (← s.detect locations) true : Recording F LoopScope) a fun s' a' => ∃ c',
        s'.Body a' M n base true c' ∧ c'.streams.Perm (f :: c.streams) := by
  have group : (groups claims)[count]? = some locations :=
    TreeMap.mem_toList_iff_getElem?_eq_some.mp (by simp [single])
  have inside (it location : Nat) (hl : locations[it]? = some location) : it < n ∧ location < k := by
    obtain ⟨c, hc, -, rfl⟩ := (mem_group group).mp hl
    exact ⟨(within it c hc).1, (within it c hc).2.1⟩
  have counted : 0 < count := by
    obtain ⟨it, c, hc, eq⟩ := exists_of_group group
    exact eq ▸ (within it c hc).2.2
  have everywhere {it : Nat} (hit : it < n) : ∃ location, locations[it]? = some location := by
    have mem : it ∈ (∅ : IndexSet) ∨ it ∈ locations.keys := by
      refine mem_of_size_eq TreeMap.nodup_keys (fun i hi => ?_) (fun _ _ => by simp) ?_ hit
      · rcases hi with hi | hi
        · simp at hi
        · rw [TreeMap.mem_keys, TreeMap.mem_iff_isSome_getElem?, Option.isSome_iff_exists] at hi
          obtain ⟨location, hl⟩ := hi
          exact (inside i location hl).1
      · simpa [TreeMap.length_keys] using all
    rcases mem with mem | mem
    · simp at mem
    · rwa [TreeMap.mem_keys, TreeMap.mem_iff_isSome_getElem?, Option.isSome_iff_exists] at mem
  refine Yields.bind (amounts.repeated counted le_rfl) fun w a₁ le₁ hw => ?_
  refine Yields.bind ((h.extend le₁).yields_detect room inside) fun p a₂ le₂ eval => ?_
  refine Yields.mono ((h.extend (le₁.trans le₂)).yields_write (f := f)
    fun it hit => ?_) ?_
  · obtain ⟨location, hl⟩ := everywhere hit
    obtain ⟨c, hc, eq, rfl⟩ := (mem_group group).mp hl
    obtain ⟨r, hr, holds⟩ := hw.2 it c hc eq
    exact ⟨(c.location, r), hr, M.extend le₂ holds, eval it c.location hl⟩
  · rintro s' a₃ - ⟨w', body⟩
    refine ⟨_, body, ?_⟩
    exact (c.emitted_addWrite w' _).flatMap_right _

/-- A contribution adds the stream that it amounts to, unless the value is known
to be zero or is not claimed at all. -/
theorem Body.ends_contribute (h : s.Body a M n base true c) (within : claims.Within n k)
    (room : k * n < 0x8000000000000000) (amounts : Amounts a M claims v f) :
    Ends (s.contribute claims v : Recording F LoopScope) a fun s' a' =>
      a.Keeps (Inside base) a' ∧ ∃ c', s'.Body a' M n base true c' ∧
        if v.isZero || claims.isEmpty then c' = c else c'.streams.Perm (f :: c.streams) := by
  rw [contribute]
  split
  case isTrue nothing => exact ends_pure ⟨Keeps.refl _ _, c, h, rfl⟩
  case isFalse something =>
      obtain ⟨it₀, c₀, claimed⟩ : ∃ it c, claims[it]? = some c := by
        have empty : claims.isEmpty = false := by
          rw [Bool.or_eq_true, not_or] at something
          exact Bool.eq_false_iff.mpr something.2
        obtain ⟨it, mem⟩ := TreeMap.isEmpty_eq_false_iff_exists_mem.mp empty
        exact ⟨it, Option.isSome_iff_exists.mp (TreeMap.mem_iff_isSome_getElem?.mp mem)⟩
      have covered : (claims.keys.filter (· < s.iterations)).length = claims.size := by
        rw [List.filter_eq_self.mpr, TreeMap.length_keys]
        intro it mem
        rw [TreeMap.mem_keys, TreeMap.mem_iff_isSome_getElem?, Option.isSome_iff_exists] at mem
        obtain ⟨c, hc⟩ := mem
        simpa [h.iterations] using (within it c hc).1
      have branches {after : LoopScope × Placed F → Recording F LoopScope}
          (conditional : ∀ s endIf, after (s, .conditional endIf) = return s.addResult endIf) :
          Ends (place.inBranches s v (groups claims) >>= after) a
            fun s' a' => a.Keeps (Inside base) a' ∧ ∃ c', s'.Body a' M n base true c' ∧
              c'.streams.Perm (f :: c.streams) := by
        refine Worlds.Ends.bind (h.ends_inBranches within room amounts claimed) ?_
        rintro ⟨s', placed⟩ a' ⟨keeps, endIf, c', rfl, body, perm⟩
        rw [conditional]
        exact ends_pure ⟨keeps, c', body, perm⟩
      simp only [place, covered, ne_eq, not_true_eq_false, if_false]
      split
      case h_1 count locations single =>
          split
          case isTrue all =>
              simp only [bind_assoc, pure_bind]
              refine Worlds.Ends.mono (h.yields_everywhere within room amounts single
                (all.trans h.iterations)) ?_
              rintro s' a' ⟨le, body⟩
              exact ⟨keeps_of_le le, body⟩
          case isFalse => exact branches fun _ _ => rfl
      case h_2 => exact branches fun _ _ => rfl

/-! ## Contributions of numbers -/

section

variable [Elementary R] [Reading F R] {inputs : List (Array F)} {r : Nat → R}

theorem yields_repeated {count : Nat} (pos : 0 < n) (counted : 0 < count)
    (means : ∀ it < n, a.Means inputs (some it) v (r it)) :
    Yields (repeated v count : Recording F (Value F)) a fun w a' =>
      ∀ it < n, a'.Means inputs (some it) w (count • r it) := by
  refine Yields.allBelow pos fun it hit => ?_
  refine Yields.mono (yields_foldlM (fun done w a' =>
    a'.Means inputs (some it) w ((done.length + 1) • r it)) ?_ ?_) ?_
  · simpa using means it hit
  · intro done x rest w a' _ le hw
    refine Recording.yields_reporting
      ((Value.yields_binary .add hw ((means it hit).extend le)).mono ?_)
    intro z a'' _ hz
    rw [List.length_append, List.length_singleton, succ_nsmul]
    exact hz
  · intro w a' _ hw
    have length : (List.range (count - 1)).length + 1 = count := by
      rw [List.length_range]
      omega
    rwa [length] at hw

/-- A number that is written at its claims amounts to its multiples. -/
theorem amounts_numbers (pos : 0 < n) (within : claims.Within n k)
    (means : ∀ it < n, a.Means inputs (some it) v (r it)) :
    Amounts a (.numbers inputs) claims v (claims.stream r) where
  repeated counted le := by
    refine (yields_repeated pos counted fun it hit => (means it hit).extend le).mono ?_
    rintro w a' - hw
    refine ⟨(hw 0 pos).fits, fun it c hc count => ?_⟩
    subst count
    exact ⟨_, by rw [Claims.stream, hc]; rfl, hw it (within it c hc).1⟩
  nothing none := by rw [Claims.stream, none, Option.map_none]

/-- A contribution adds what the claims of the value make of it. -/
theorem Body.ends_contributeNumbers (h : s.Body a (.numbers inputs) n base true c)
    (within : claims.Within n k) (room : k * n < 0x8000000000000000)
    (means : ∀ it < n, a.Means inputs (some it) v (r it)) :
    Ends (s.contribute claims v : Recording F LoopScope) a fun s' a' =>
      a.Keeps (Inside base) a' ∧ ∃ c', s'.Body a' (.numbers inputs) n base true c' ∧
        ∀ it < n, ∀ location, total c'.streams it location =
          total [claims.stream r] it location + total c.streams it location := by
  refine (h.ends_contribute within room (amounts_numbers h.pos within means)).mono ?_
  rintro s' a' ⟨keeps, c', body, added⟩
  refine ⟨keeps, c', body, fun it hit location => ?_⟩
  split at added
  case isTrue nothing =>
      have none : total [claims.stream r] it location = 0 := by
        rw [total_singleton, Claims.stream]
        rcases (Bool.or_eq_true _ _).mp nothing with zero | empty
        · rw [(means it hit).isZero zero]
          cases claims[it]? <;> simp [sentTo]
        · rw [TreeMap.getElem?_of_isEmpty empty]
          rfl
      rw [none, zero_add, added]
  case isFalse => rw [total_perm added, ← List.singleton_append, total_append]

/-- Contributions add up. -/
theorem Body.ends_contributeAll {σ : Type} (h : s.Body a (.numbers inputs) n base true c)
    {es : List (σ × Claims)} (within : ∀ e ∈ es, e.2.Within n k)
    (room : k * n < 0x8000000000000000) {value : σ → Recording F (Value F)} {r : σ → Nat → R}
    (values : ∀ e ∈ es, ∀ a', a.Keeps (Inside base) a' → Yields (value e.1) a' fun v a'' =>
      ∀ it < n, a''.Means inputs (some it) v (r e.1 it)) :
    Ends (es.foldlM (fun (s : LoopScope) (stream, claims) => do
      s.contribute claims (← value stream)) s) a fun s' a' =>
        a.Keeps (Inside base) a' ∧ ∃ c', s'.Body a' (.numbers inputs) n base true c' ∧
          ∀ it < n, ∀ location, total c'.streams it location = total c.streams it location +
            (es.map fun e => total [e.2.stream (r e.1)] it location).sum := by
  refine ends_foldlM (fun (done : List (σ × Claims)) (s' : LoopScope) a' =>
    a.Keeps (Inside base) a' ∧ ∃ c' : Content R, s'.Body a' (.numbers inputs) n base true c' ∧
      ∀ it < n, ∀ location, total c'.streams it location = total c.streams it location +
        (done.map fun e => total [e.2.stream (r e.1)] it location).sum) ?_ ?_
  · exact ⟨Keeps.refl _ _, c, h, fun it _ location => by simp⟩
  · rintro done ⟨stream, claims⟩ rest s' a' split ⟨keeps, c', h', sum⟩
    have mem : (stream, claims) ∈ es := by simp [split]
    refine Worlds.Ends.bind (values _ mem a' keeps) ?_
    rintro v a₁ ⟨le, means⟩
    refine ((h'.extend le).ends_contributeNumbers (within _ mem) room means).mono ?_
    rintro s'' a₂ ⟨keeps', c'', h'', sum'⟩
    refine ⟨(keeps.trans (keeps_of_le le)).trans keeps', c'', h'', fun it hit location => ?_⟩
    rw [sum' it hit location, sum it hit location, List.map_append, List.sum_append,
      List.map_singleton, List.sum_singleton, add_comm, add_assoc]

end

end LoopScope

end LoopDiff
