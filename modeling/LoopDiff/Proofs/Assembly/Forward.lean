import LoopDiff.Assembly.Forward
import LoopDiff.Library.Compile
import LoopDiff.Proofs.Assembly.Basic
import LoopDiff.Proofs.Assembly.Outputs

/-!
# LoopDiff.Proofs.Assembly.Forward

The graph of the dependents computes the dependents.

An equation of a loop is one stream, which sends its value to the dependent
of each iteration.  No dependent is computed twice, so the streams of a loop
send at most one value to a location (`Loop.Valid.sent_equations`), and
after all loops every output holds the value of its dependent.
-/

namespace LoopDiff

variable {F R : Type} [Scalar F] [Elementary R] [Reading F R] {inputs : List (Array F)}

/-! ## Equations as streams -/

/-- The streams of the equations of a loop. -/
def Model.equationStreams (m : Model F) (l : Loop F) (x : Nat → R) : List (Stream R) :=
  l.dependents.zipIdx.map fun (row, e) it => (row[it]?).map fun d => (d, m.equationAt l x e it)

section

variable {m : Model F} {l : Loop F} {x y : Nat → R}

/-- The pairs that the equations send. -/
theorem Loop.Valid.equations_eq (valid : l.Valid) :
    ((List.range l.iterations).flatMap fun it =>
      (m.equationStreams l x).filterMap fun f => f it) =
      (List.range l.iterations).flatMap fun it => l.dependents.zipIdx.map fun (row, e) =>
        (row.getD it 0, m.equationAt l x e it) := by
  refine List.flatMap_congr fun it hit => ?_
  rw [Model.equationStreams, List.filterMap_map, ← List.filterMap_eq_map]
  refine List.filterMap_congr fun e he => ?_
  have mem := List.mem_of_getElem? (List.mem_zipIdx_iff_getElem?.mp he)
  have lt : it < e.1.size := valid.size_eq (List.mem_append_left _ mem) ▸ List.mem_range.mp hit
  simp [Array.getD_eq_getD_getElem?, lt]

theorem Loop.Valid.perm_locations (valid : l.Valid) :
    (((List.range l.iterations).flatMap fun it =>
      (m.equationStreams l x).filterMap fun f => f it).map Prod.fst).Perm
      (l.dependents.flatMap Array.toList) := by
  have firsts (it : Nat) : (l.dependents.zipIdx.map fun (row, e) =>
      (row.getD it 0, m.equationAt l x e it)).map Prod.fst =
        l.dependents.map fun row => row.getD it 0 := by
    have fst := congrArg (List.map fun row : Array Nat => row.getD it 0)
      (List.zipIdx_map_fst 0 l.dependents)
    rwa [List.map_map] at fst ⊢
  rw [valid.equations_eq, List.map_flatMap, List.flatMap_congr fun it _ => firsts it]
  exact valid.perm_dependents

/-- No two equations send to the same location. -/
theorem Loop.Valid.settles_equations (valid : l.Valid) :
    Settles false l.iterations (m.equationStreams l x) := by
  have nodup := (valid.perm_locations (m := m) (x := x)).nodup_iff.mpr valid.nodup
  rw [List.map_flatMap] at nodup
  simp only [List.map_filterMap] at nodup
  exact .inr nodup

/-- The equations send every dependent of the loop to its location. -/
theorem Loop.Valid.sent_equations (valid : l.Valid) (hl : l ∈ m.loops) (computes : m.Computes x y)
    (k : Nat) : sent l.iterations (m.equationStreams l x) k =
      if k ∈ l.dependents.flatMap Array.toList then y k else 0 := by
  have perm := valid.perm_locations (m := m) (x := x)
  rw [sent_eq_sum, sum_sentTo (perm.nodup_iff.mpr valid.nodup) ?_, if_congr perm.mem_iff rfl rfl]
  intro p hp
  obtain ⟨it, hit, hp⟩ := List.mem_flatMap.mp hp
  obtain ⟨f, hf, hp⟩ := List.mem_filterMap.mp hp
  obtain ⟨⟨row, e⟩, he, rfl⟩ := List.mem_map.mp hf
  obtain ⟨d, hd, rfl⟩ := Option.map_eq_some_iff.mp hp
  exact (computes.loop hl e row (List.mem_zipIdx_iff_getElem?.mp he) it d hd).symm

end

/-! ## The assembly -/

namespace Assembly

variable {asm : Assembly F} {a : Arena F} {m : Model F} {x y : Nat → R} {k : Nat}

/-- A loop adds its dependents to the outputs. -/
theorem Ready.ends_forwardLoop (ready : asm.Ready a inputs m x) (accepted : m.Accepted)
    (fits : m.Fits k) (computes : m.Computes x y) {l : Loop F}
    (hl : l ∈ m.loops) {outputs : Outputs F} {z : Nat → R} (tiered : a.Tiered)
    (h : outputs.Hold a inputs m.range z) :
    Ends (asm.forwardLoop outputs l) a fun outputs' a' => a.Keeps Arena.LoopKind a' ∧
      outputs'.Hold a' inputs m.range fun d =>
        z d + if d ∈ l.dependents.flatMap Array.toList then y d else 0 := by
  have valid := accepted.loop hl
  have small : l.iterations ≤ openEnd := by
    have := fits.iterations hl
    rw [openEnd]
    omega
  rw [forwardLoop]
  refine Worlds.Ends.bind
    (LoopScope.yields_begin (R := R) (.numbers inputs) false l.id valid.pos small tiered.owned) ?_
  rintro s a₁ ⟨le₁, body⟩
  refine Worlds.Ends.bind ((ready.extend le₁).yields_loopInputs accepted fits hl body) ?_
  rintro us a₂ ⟨le₂, length, hu⟩
  refine Worlds.Ends.bind (Yields.allBelow valid.pos fun it hit =>
    (accepted.loopTape hl).yields_eval (Interpretation.recorded R inputs (some it))
      (fun _ _ _ _ => trivial) length (hu it hit)) ?_
  rintro ys a₃ ⟨le₃, hy⟩
  have rows := evals_of_detected valid.dependentPatterns
    (fun row hrow => valid.size_eq (List.mem_append_left _ hrow)) (fits.iterations hl)
    (fun row hrow j hj => accepted.valid.dependents_lt hl hrow hj) accepted.valid.range_lt
  have flows : List.Forall₂ (LoopScope.Flows a₃ (.numbers inputs) l.iterations)
      (l.dependentPatterns.zip ys) (m.equationStreams l x) := by
    have count : l.dependents.length = ys.length :=
      valid.outputs.trans (hy 0 valid.pos).length_eq
    refine List.forall₂_iff_get.mpr ⟨?_, fun e he he' it hit => ?_⟩
    · simp [Model.equationStreams, ← rows.length_eq, count]
    · have lt : e < l.dependents.length := by
        simpa [Model.equationStreams] using he'
      have hrow := List.getElem?_eq_getElem lt
      obtain ⟨p, hp, evals⟩ := exists_right_of_forall₂ rows hrow
      obtain ⟨d, hd, -, eval⟩ := evals it hit
      have hv := List.getElem?_eq_getElem (count ▸ lt : e < ys.length)
      obtain ⟨o, ho, means⟩ := exists_left_of_forall₂ (hy it hit) hv
      refine ⟨(d, m.equationAt l x e it), ?_, ?_, ?_⟩
      · simp [Model.equationStreams, hd]
      · simp only [List.get_eq_getElem, List.getElem_zip]
        rwa [(List.getElem?_eq_some_iff.mp hp).2]
      · simp only [List.get_eq_getElem, List.getElem_zip, Model.equationAt, Tape.outputAt_eq ho]
        exact means
  refine Worlds.Ends.bind ((body.extend (le₂.trans le₃)).yields_writeAll flows) ?_
  rintro s' a₄ ⟨le₄, c, body', perm⟩
  have le := (le₁.trans (le₂.trans le₃)).trans le₄
  have perm : c.streams.Perm (m.equationStreams l x) := by
    simpa [Content.streams, Content.emitted, Content.empty] using perm
  refine (body'.ends_closeInto (Arena.Keeps.tiered le tiered) (h.extend le)
    (valid.settles_equations.perm perm) valid.nodup fun d hd => ?_).mono ?_
  · obtain ⟨row, hrow, hd⟩ := List.mem_flatMap.mp hd
    exact accepted.valid.dependents_lt hl hrow (Array.mem_toList_iff.mp hd)
  · rintro outputs' a₅ ⟨keeps, h'⟩
    refine ⟨(Arena.keeps_of_le le).trans keeps, h'.congr fun d _ => ?_⟩
    rw [sent_perm perm, valid.sent_equations hl computes]
    split <;> rfl

/-- The outputs before any loop are the dependents of the outer part. -/
theorem Ready.yields_outerOutputs (ready : asm.Ready a inputs m x) (accepted : m.Accepted)
    (computes : m.Computes x y) :
    Yields asm.outerOutputs a fun outputs a' =>
      outputs.Hold a' inputs m.range fun d => if d ∈ Model.computed m.outer? [] then y d else 0 := by
  rw [outerOutputs, ready.model]
  cases ho : m.outer? with
  | none =>
      rw [Model.computed_nil, Option.elim_none]
      exact yields_pure ((Outputs.hold_zeros m.range).congr fun d _ => by simp)
  | some o =>
      refine Yields.bind (ready.yields_outerValues accepted ho) fun zs a₁ _ hz => ?_
      rw [Model.computed_nil, Option.elim_some]
      have firsts : (o.dependents.zip zs).map Prod.fst = o.dependents := by
        refine List.map_fst_zip ?_
        rw [← (hz none).length_eq, ← Tape.outputCount, ← (accepted.outer ho).outputs]
        exact Nat.le_add_right ..
      refine yields_pure ((Outputs.hold_zeros m.range).setAll ?_ fun d free => ?_)
      · rintro ⟨d, v⟩ mem
        obtain ⟨i, hi⟩ := List.mem_iff_getElem?.mp mem
        obtain ⟨hd, hv⟩ := List.getElem?_zip_eq_some.mp hi
        obtain ⟨r, hr, means⟩ := exists_left_of_forall₂ (hz none) hv
        simp only
        rw [if_pos (List.mem_of_getElem? hd), computes.outer ho _ _ hd, Tape.outputAt_eq hr]
        exact .plain means
      · rw [if_neg (firsts ▸ free)]

/-- The outputs of the forward graph hold the dependents. -/
theorem Ready.ends_forward (ready : asm.Ready a inputs m x) (accepted : m.Accepted)
    (fits : m.Fits k) (computes : m.Computes x y)
    (tiered : a.Tiered) : Ends asm.forward a fun outputs a' =>
      Outputs.Hold outputs.toArray a' inputs m.range y := by
  rw [forward]
  refine Worlds.Ends.bind (ready.yields_outerOutputs accepted computes) ?_
  rintro outputs a₁ ⟨le₁, h₁⟩
  rw [ready.model]
  refine Worlds.Ends.bind (P := fun outputs a' => outputs.Hold a' inputs m.range y) ?_
    fun outputs a' h => ends_pure h
  refine Worlds.Ends.mono (ends_foldlM (fun done (outputs : Outputs F) a' =>
    a₁.Keeps Arena.LoopKind a' ∧ outputs.Hold a' inputs m.range fun d =>
      if d ∈ Model.computed m.outer? done then y d else 0) ⟨.refl _ _, h₁⟩ ?_) ?_
  · rintro done l rest outputs a' split ⟨keeps, h⟩
    have hl : l ∈ m.loops := by simp [split]
    refine (((ready.extend le₁).keep Arena.loopKind_of_tier_zero keeps).ends_forwardLoop accepted
      fits computes hl (keeps.tiered (Arena.Keeps.tiered le₁ tiered)) h).mono ?_
    rintro outputs' a'' ⟨keeps', h'⟩
    exact ⟨keeps.trans keeps', h'.congr fun d _ => accepted.valid.sum_computed split d (y d)⟩
  · rintro outputs a' ⟨-, h⟩
    refine h.congr fun d lt => ?_
    rw [if_pos (accepted.valid.covers.mem_iff.mpr (List.mem_range.mpr lt))]

end Assembly

/-! ## Evaluation -/

namespace Model

variable {m : Model F} {k : Nat}

/-- The numbers `ys` are read as the dependents at the numbers `xs`. -/
def ReadsAs (m : Model F) (R : Type) [Elementary R] [Reading F R] (xs ys : List F) : Prop :=
  ∃ y : Nat → R, m.Computes (fun j => embed (xs.getD j Scalar.zero)) y ∧ ys.length = m.range ∧
    ∀ (d : Nat) (v : F), ys[d]? = some v → embed v = y d

/-- The forward graph, on any numbers, gives the dependents. -/
theorem Accepted.assemble_forward (accepted : m.Accepted) (fits : m.Fits k) :
    ∃ c : Compiled F, m.assemble false Assembly.forward = .ok c ∧
      c.outputs.length = m.range ∧ ∀ xs : List F, xs.length = m.domain →
        ∃ ys, c.Gives [xs] ys ∧ m.ReadsAs R xs ys := by
  let numbers (xs : {xs : List F // xs.length = m.domain}) : List (List F) := [xs.1]
  have ends (xs : {xs : List F // xs.length = m.domain}) :
      Ends (Assembly.begin m false >>= Assembly.forward) (Arena.empty 1) fun vs a =>
        vs.length = m.range ∧ ∃ y : Nat → R,
          m.Computes (fun j => embed (xs.1.getD j Scalar.zero)) y ∧
          ∀ (k : Nat) (v : Value F), vs[k]? = some v → ∃ x,
            Problem.output? ⟨a, (numbers xs).map List.toArray⟩ v = some x ∧ embed x = y k := by
    obtain ⟨y, computes⟩ := m.exists_computes accepted.valid
      fun j => (embed (xs.1.getD j Scalar.zero) : R)
    have supplies : Supplies [xs.1.toArray] independentsArray m.domain
        fun j => (embed (xs.1.getD j Scalar.zero) : R) := supplies_of_list rfl xs.2
    refine Worlds.Ends.bind (Assembly.yields_begin fits supplies) ?_
    rintro asm a ⟨le, ready⟩
    refine (ready.ends_forward accepted fits computes
      (Arena.Keeps.tiered le (tiered_empty 1))).mono fun outputs a' h => ?_
    exact ⟨by simpa using h.size_eq, y, computes, fun k v hv =>
      (h.holds (by simpa using hv)).value⟩
  obtain ⟨c, assembled, length, h⟩ := assemble_of_forall numbers ends
  refine ⟨c, assembled, length, fun xs len => ?_⟩
  obtain ⟨y, computes, ys, gives, count, values⟩ := h ⟨xs, len⟩
  exact ⟨ys, gives, y, computes, count, values⟩

end Model

/-! ## Exact arithmetic -/

namespace Model

section

variable {F : Type} [Field F] [Scalar F] [ExactScalar F] {m : Model F} {k : Nat}

/-- In exact arithmetic numbers that are read as the dependents are those
that a run of the model gives. -/
theorem Accepted.evaluate_of_readsAs (accepted : m.Accepted) {xs ys : List F}
    (len : xs.length = m.domain) (h : m.ReadsAs F xs ys) : m.evaluate xs = .ok ys := by
  obtain ⟨y, computes, count, values⟩ := h
  let I : Interpretation (Except Failure) F F F := .plain _ F F
  have exponents : m.Exponents I.exponent := ⟨fun _ _ _ _ _ _ => trivial, fun _ _ _ _ _ _ => trivial⟩
  obtain ⟨zs, run, -, count', values'⟩ :=
    accepted.yields_run I exponents len (Interpretation.meansAll_plain xs) computes
  have same : zs = ys := by
    refine List.ext_getElem (count'.trans count.symm) fun d lt lt' => ?_
    have hz := values' d zs[d] (by simp)
    exact (show zs[d] = y d from hz).trans (values d ys[d] (by simp)).symm
  exact same ▸ run

/-- The graph that is compiled for the dependents of a model evaluates, on
any numbers, to what a run of the model gives. -/
theorem Accepted.forward_refines (accepted : m.Accepted) (fits : m.Fits 0) :
    ∃ c : Compiled F, m.assemble false Assembly.forward = .ok c ∧
      ∀ xs : List F, xs.length = m.domain → ∃ ys, m.evaluate xs = .ok ys ∧
        c.arena.evaluate c.outputs [xs] = .ok ys := by
  obtain ⟨c, assembled, -, evaluates⟩ := accepted.assemble_forward (R := F) fits
  refine ⟨c, assembled, fun xs len => ?_⟩
  obtain ⟨ys, gives, reads⟩ := evaluates xs len
  exact ⟨ys, accepted.evaluate_of_readsAs len reads, gives.evaluate⟩

end

theorem exponents_products (F : Type) (P : Int32 → Prop) : (products F).Exponents P := by
  refine ⟨fun o ho i arg n h => ?_, fun l hl i arg n h => ?_⟩
  · cases ho
    match i, h with
    | 0, h | 1, h | 2, h | 3, h | 4, h => cases h
  · cases List.mem_singleton.mp hl
    match i, h with
    | 0, h | 1, h | 2, h => cases h

theorem fits_products (F : Type) {k : Nat} (small : k ≤ 100) : (products F).Fits k where
  domain := show 24 * 3 < 0x8000000000000000 by decide
  iterations hl := by
    cases List.mem_singleton.mp hl
    exact show 2 < 0x8000000000000000 by decide
  room hl := by
    cases List.mem_singleton.mp hl
    exact show k * 2 < _ by omega

/-- The products `2 * 7` and `3 * 7`, where `7` is its own sine, and the
square of `7`. -/
theorem forward_products : ∃ c : Compiled ℚ,
    (products ℚ).assemble false Assembly.forward = .ok c ∧
      c.arena.evaluate c.outputs [[2, 3, 7]] = .ok [14, 21, 49] := by
  obtain ⟨c, assembled, evaluates⟩ := (accepted_products (F := ℚ)).forward_refines
    (fits_products ℚ (by decide))
  obtain ⟨ys, run, value⟩ := evaluates [2, 3, 7] rfl
  have dependents : (products ℚ).evaluate [2, 3, 7] = .ok [14, 21, 49] := by decide +kernel
  cases run.symm.trans dependents
  exact ⟨c, assembled, value⟩

end Model

end LoopDiff
