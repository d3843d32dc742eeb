import LoopDiff.Proofs.Tape.Dependency
import LoopDiff.Proofs.Tape.Derivatives

/-!
# LoopDiff.Proofs.Tape.Reachability

Sparsity is reachability.

An output has an input in its row of the Jacobian sparsity exactly if a path
along operands leads from the one to the other, and an entry is live exactly
if a path leads to it from a root.  There is nothing approximate about it,
also for tapes with more inputs than a word has bits.

What is not in a row has derivative zero, in exact arithmetic.  This does not
need the rules of differentiation: the tangent of a result is a combination
of the tangents of the operands, for any elementary functions, so without
tangents there is none (`Dual.yields_binary` and its kin).
-/

namespace LoopDiff

variable {m : Type → Type} {W : Type} [Monad m] [MonadExceptOf Failure m] [Worlds m W]
  [Preorder W] {w : W} {F : Type} [Scalar F]

/-! ## Operations on constants -/

namespace Dual

variable [Field F] [ExactScalar F]

omit [MonadExceptOf Failure m] in
theorem yields_chain (x : Dual F) (value derivative : F) :
    Yields (chain x value derivative : m (Dual F)) w fun z _ => x.eps = 0 → z.eps = 0 := by
  have run : (chain x value derivative : m (Dual F)) =
      pure ⟨value, Scalar.binary .mul x.eps derivative⟩ := pure_bind _ _
  rw [run]
  refine yields_pure fun hx => ?_
  rw [hx, ExactScalar.mul_eq, zero_mul]

omit [MonadExceptOf Failure m] in
/-- A power of constants is one, by the rule for a constant exponent. -/
theorem yields_power (x y : Dual F) : Yields (power x y : m (Dual F)) w fun z _ =>
    x.eps = 0 → y.eps = 0 → z.eps = 0 := by
  simp only [power, Arith.pow, Arith.sub, Arith.mul, Arith.div, Arith.add, Arith.binary,
    Arith.unary, pure_bind]
  cases zero : Constants.isZero y.eps with
  | true => exact (yields_chain x _ _).mono fun _ _ _ constant hx _ => constant hx
  | false =>
      refine yields_pure fun _ hy => ?_
      have known : Scalar.isZero y.eps = true := (ExactScalar.isZero_iff _).mpr hy
      cases zero.symm.trans known

/-- A binary operation on constants gives a constant. -/
theorem yields_binary (op : Binary) (x y : Dual F) :
    Yields (Arith.binary op x y : m (Dual F)) w fun z _ =>
      x.eps = 0 → y.eps = 0 → z.eps = 0 := by
  cases op with
  | pow => exact yields_power x y
  | _ =>
      simp only [Arith.binary, binary, Arith.sub, Arith.mul, Arith.div, Arith.add, pure_bind]
      exact yields_pure fun hx hy => by
        simp [hx, hy, ExactScalar.add_eq, ExactScalar.sub_eq, ExactScalar.mul_eq,
          ExactScalar.div_eq]

/-- A unary operation on a constant gives a constant. -/
theorem yields_unary (op : Unary) (x : Dual F) :
    Yields (Arith.unary op x : m (Dual F)) w fun z _ => x.eps = 0 → z.eps = 0 := by
  cases op with
  | neg =>
      simp only [Arith.unary, unary, Arith.neg, pure_bind]
      exact yields_pure fun hx => by simp [hx, ExactScalar.neg_eq]
  | _ =>
      simp only [Arith.unary, unary, Arith.neg, Arith.recip, Arith.sub, Arith.mul, Arith.add,
        Arith.binary, pure_bind]
      exact yields_chain x _ _

/-- An integer power of a constant is a constant. -/
theorem yields_powi (x : Dual F) {n : Int32} (lowers : (Interpretation.plain m F PUnit).lowers n) :
    Yields (Arith.powi x n : m (Dual F)) w fun z _ => x.eps = 0 → z.eps = 0 := by
  simp only [Arith.powi, powi, Derivative.powi]
  split
  case isTrue => exact yields_pure fun _ => ExactScalar.zero_eq
  case isFalse =>
      rw [pure_bind, bind_assoc]
      refine (lowers w).bind fun k _ _ _ => ?_
      simp only [Arith.mul, Arith.binary, pure_bind]
      exact yields_chain x _ _

end Dual

/-! ## Sweeps -/

namespace Entry

variable [Field F] [ExactScalar F] {e : Entry F} {inputs values : Array (Dual F)}

omit [Scalar F] [Field F] [ExactScalar F] in
theorem getElem?_of_mem_reads (reads : ∀ a ∈ e.reads, a < values.size) {a : Nat}
    (ha : a ∈ e.reads) : ∃ v, values[a]? = some v :=
  ⟨_, Array.getElem?_eq_getElem (reads a ha)⟩

/-- An operation on constants gives a constant. -/
theorem yields_forwardConstant (computed : e.isInput = false) (complete : e.complete)
    (reads : ∀ a ∈ e.reads, a < values.size)
    (lowers : ∀ arg n, e = .powi arg n → (Interpretation.plain m F PUnit).lowers n) :
    Yields (e.forward inputs values : m (Dual F)) w fun z _ =>
      (∀ a ∈ e.args, ∀ v, values[a]? = some v → v.eps = 0) → z.eps = 0 := by
  cases e with
  | input => cases computed
  | const c => exact yields_pure fun _ => ExactScalar.zero_eq
  | powi arg n =>
      obtain ⟨x, hx⟩ := getElem?_of_mem_reads reads (List.mem_singleton_self arg)
      refine yields_present_bind hx ?_
      refine (Dual.yields_powi x (lowers arg n rfl)).mono fun z _ _ constant all => ?_
      exact constant (all arg (by simp [args]) x hx)
  | unary op arg second =>
      obtain ⟨x, hx⟩ := getElem?_of_mem_reads reads (List.mem_cons_self ..)
      refine yields_present_bind hx ?_
      have result : Yields (Arith.unary op x : m (Dual F)) w fun z _ =>
          (∀ a ∈ [arg], ∀ v, values[a]? = some v → v.eps = 0) → z.eps = 0 :=
        (Dual.yields_unary op x).mono fun z _ _ constant all =>
          constant (all arg (by simp) x hx)
      cases second with
      | none =>
          rw [fetchSecond, pure_bind]
          exact result
      | some b =>
          obtain ⟨y, hy⟩ := getElem?_of_mem_reads reads
            (List.mem_cons_of_mem _ (List.mem_singleton_self b))
          exact yields_present_bind hy result
  | binary op left right =>
      obtain ⟨right, rfl⟩ := Option.isSome_iff_exists.mp complete
      obtain ⟨x, hx⟩ := getElem?_of_mem_reads reads (List.mem_cons_self ..)
      obtain ⟨y, hy⟩ := getElem?_of_mem_reads reads
        (List.mem_cons_of_mem _ (List.mem_singleton_self right))
      refine yields_present_bind hx (yields_present_bind hy ?_)
      refine (Dual.yields_binary op x y).mono fun z _ _ constant all => ?_
      exact constant (all left (by simp [args]) x hx) (all right (by simp [args]) y hy)

end Entry

namespace Tape

variable [Field F] [ExactScalar F] {t : Tape F} {xs : List F} {j : Nat}

/-- Only the input `j` is no constant. -/
theorem yields_seedConstant (lt : j < xs.length) :
    Yields (seedInput xs j : m (List (Dual F))) w fun us _ =>
      us.length = xs.length ∧ ∀ i u, us[i]? = some u → i ≠ j → u.eps = 0 := by
  rw [seedInput, if_pos lt]
  refine yields_pure ⟨by simp, fun i u hu ne => ?_⟩
  rw [List.getElem?_map] at hu
  obtain ⟨⟨x, i'⟩, hx, rfl⟩ := Option.map_eq_some_iff.mp hu
  rw [List.getElem?_zipIdx] at hx
  obtain ⟨x', -, eq⟩ := Option.map_eq_some_iff.mp hx
  cases eq
  dsimp only
  rw [Nat.zero_add, if_neg ne]
  exact ExactScalar.zero_eq

/-- In the direction of the input `j`, entries that do not depend on it are
constants. -/
theorem WellFormed.yields_sweepConstant (wf : t.WellFormed)
    (exponents : t.Exponents (Interpretation.plain m F PUnit).lowers)
    (len : xs.length = t.inputCount) (lt : j < t.inputCount) :
    Yields (do t.forwardSweep (← seedInput xs j) : m (Array (Dual F))) w
      fun values _ => values.size = t.size ∧
        ∀ i v, values[i]? = some v → ¬t.DependsOn i j → v.eps = 0 := by
  refine (yields_seedConstant (len ▸ lt)).bind fun us _ _ ⟨len', seeds⟩ => ?_
  refine yields_checkSize_bind (len'.trans len).symm ?_
  refine Yields.mono (m := m) (yields_foldlM (fun done (values : Array (Dual F)) (_ : W) =>
    values.size = done.length ∧ ∀ i v, values[i]? = some v → ¬t.DependsOn i j → v.eps = 0)
      ⟨rfl, by simp⟩ ?_) ?_
  · intro done e rest values w' split _ ⟨size, constants⟩
    have he := getElem?_of_split split
    have forward : Yields (e.forward us.toArray values : m (Dual F)) w' fun z _ =>
        ¬t.DependsOn done.length j → z.eps = 0 := by
      cases op : e.isInput with
      | true =>
          have inside := (wf.input_iff _).mp ⟨e, he, op⟩
          cases e with
          | input =>
              have seeded : done.length < us.length := by omega
              have seed := List.getElem?_eq_getElem seeded
              have at_ : us.toArray[values.size]? = some us[done.length] := by
                rw [List.getElem?_toArray, size, seed]
              refine yields_present at_ fun apart => seeds done.length _ seed fun eq => ?_
              exact apart ((dependsOn_input he).mpr eq)
          | _ => cases op
      | false =>
          refine (Entry.yields_forwardConstant op (wf.complete he) (size ▸ wf.reads_lt he)
            fun arg n eq => exponents _ arg n (eq ▸ he)).mono fun z _ _ constant apart => ?_
          exact constant fun a ha v hv =>
            constants a v hv fun dep => apart ((dependsOn_op he op).mpr ⟨a, ha, dep⟩)
    refine forward.bind fun z _ _ hz => yields_pure ⟨by simp [size], fun i v hv apart => ?_⟩
    rw [Array.getElem?_push] at hv
    split at hv
    case isTrue last =>
        cases hv
        exact hz (by rwa [← size, ← last])
    case isFalse => exact constants i v hv apart
  · rintro values _ - ⟨size, constants⟩
    exact ⟨size.trans (by simp [Tape.size]), constants⟩

/-- The first derivatives by inputs that an output does not depend on are
zero. -/
theorem WellFormed.yields_zeros (wf : t.WellFormed)
    (exponents : t.Exponents (Interpretation.plain m F PUnit).lowers) {rows : List IndexSet}
    (len : xs.length = t.inputCount) (count : rows.length = t.outputCount)
    (inside : ∀ row ∈ rows, ∀ j ∈ row, j < t.inputCount) :
    Yields (t.jacobianEntries xs rows : m (PairMap F)) w fun E _ =>
      Fills E (fun e => ∃ row, rows[e.1]? = some row ∧ e.2 ∈ row)
        fun e v => ¬t.DependsOn (t.outputAt e.1) e.2 → v = 0 := by
  refine yields_requested
    (Q := fun _ e v => ¬t.DependsOn (t.outputAt e.1) e.2 → v = 0) (fun _ _ _ _ _ h => h) count
    fun j _ _ ⟨row, hrow, hj⟩ => ?_
  refine (wf.yields_sweepConstant exponents len (inside row hrow j hj)).mono ?_
  rintro values _ - ⟨size, constants⟩ i o ho
  have at_ := Array.getElem?_eq_getElem (size ▸ wf.output_lt o (List.mem_of_getElem? ho))
  exact ⟨_, at_, fun apart => constants o _ at_ (outputAt_eq ho ▸ apart)⟩

end Tape

/-! ## Sparsity -/

namespace Tape

variable {t : Tape F}

/-- The Jacobian sparsity and the live entries of a tape are what paths along
operands reach, and in exact arithmetic a derivative that is asked for outside
of the sparsity is zero. -/
theorem WellFormed.sparsity_exact (wf : t.WellFormed) :
    (∃ S, t.jacobianSparsity = .ok S ∧ S.length = t.outputCount ∧
      ∀ i o, t.outputs[i]? = some o → ∀ j, j ∈ S.getD i ∅ ↔ t.DependsOn o j) ∧
    (∀ roots : List Nat, (∀ r ∈ roots, r < t.size) →
      ∃ live, t.liveEntries roots = .ok live ∧ live.size = t.size ∧
        ∀ i, live.getD i false = true ↔ ∃ r ∈ roots, t.LeadsTo i r) ∧
    ∀ [Field F] [ExactScalar F] (xs : List F) (rows : List IndexSet),
      xs.length = t.inputCount → rows.length = t.outputCount →
      (∀ row ∈ rows, ∀ j ∈ row, j < t.inputCount) →
      ∃ S, t.jacobianSparsity = .ok S ∧ t.Returns 1 (t.jacobianEntries xs rows) fun E =>
        (∀ i j, (i, j) ∈ E ↔ ∃ row, rows[i]? = some row ∧ j ∈ row) ∧
        ∀ i j, (i, j) ∈ E → j ∉ S.getD i ∅ → E[(i, j)]? = some 0 := by
  obtain ⟨S, sparsity, depends⟩ := exists_ok_of_yields wf.yields_jacobianSparsity
  have row (i o : Nat) (ho : t.outputs[i]? = some o) (j : Nat) :
      j ∈ S.getD i ∅ ↔ t.DependsOn o j := by
    rw [mem_row_iff depends, outputAt_eq ho]
    exact and_iff_right (List.getElem?_eq_some_iff.mp ho).1
  refine ⟨⟨S, sparsity, depends.length_eq.symm, row⟩, fun roots inside => ?_, ?_⟩
  · exact exists_ok_of_yields (wf.yields_liveEntries inside)
  · intro _ _ xs rows len count inside
    have run := returns
      (fun exponents => wf.yields_zeros (m := Except Failure)
        (exponents.mono fun n => Interpretation.takes_plain.lowers) len count inside)
      (wf.yields_zeros (m := Lenient)
        (fun _ _ n _ => Interpretation.takes_plain.lowers_lenient n) len count inside)
    refine ⟨S, sparsity, run.mono ?_⟩
    rintro E ⟨requested, zeros⟩
    refine ⟨fun i j => requested (i, j), fun i j mem out => ?_⟩
    obtain ⟨r, hr, -⟩ := (requested (i, j)).mp mem
    have lt : i < t.outputs.length := (List.getElem?_eq_some_iff.mp hr).1.trans_eq count
    have ho := List.getElem?_eq_getElem lt
    obtain ⟨v, hv⟩ := Option.isSome_iff_exists.mp (Std.TreeMap.mem_iff_isSome_getElem?.mp mem)
    rw [hv, zeros (i, j) v hv fun dep => out ((row i _ ho j).mpr (outputAt_eq ho ▸ dep))]

/-- The product of the first of 66 inputs and the last, which are in different
words. -/
def straddling : Tape ℚ :=
  ⟨(Array.replicate 66 .input).push (.binary .mul 0 (some 65)), 66, [66]⟩

/-- The product depends on its two factors.  The input next to the last has
derivative zero. -/
theorem sparsity_straddling : straddling.WellFormed ∧
    straddling.jacobianSparsity.map (·.map (·.toList)) = .ok [[0, 65]] ∧
    (∃ live, straddling.liveEntries [66] = .ok live ∧ live.getD 65 false = true ∧
      live.getD 64 false = false) ∧
    ∃ E, (straddling.jacobianEntries (List.replicate 66 1) [.ofList [64, 65]] :
      Except Failure (PairMap ℚ)) = .ok E ∧ E[((0, 64) : Nat × Nat)]? = some 0 := by
  have wf : straddling.WellFormed := by decide +kernel
  have pattern : straddling.jacobianSparsity.map (·.map (·.toList)) = .ok [[0, 65]] := by
    decide +kernel
  have alive : (straddling.liveEntries [66]).map
      (fun live => (live.getD 65 false, live.getD 64 false)) = .ok (true, false) := by
    decide +kernel
  obtain ⟨-, liveness, zeros⟩ := wf.sparsity_exact
  obtain ⟨live, run, -⟩ := liveness [66] (by decide +kernel)
  rw [run] at alive
  obtain ⟨marked, dead⟩ := Prod.mk.inj (Except.ok.inj alive)
  obtain ⟨S, sparsity, returns⟩ := zeros (List.replicate 66 1)
    [.ofList [64, 65]] (by simp [straddling]) rfl (by simp [straddling])
  obtain ⟨E, entries, requested, zero⟩ := returns.exists_ok (by decide +kernel)
  refine ⟨wf, pattern, ⟨live, run, marked, dead⟩, E, entries, ?_⟩
  rw [sparsity] at pattern
  obtain ⟨row, rfl, row_eq⟩ := List.map_eq_singleton_iff.mp (Except.ok.inj pattern)
  refine zero 0 64 ((requested 0 64).mpr ⟨_, rfl, by simp⟩) fun mem => ?_
  have listed : 64 ∈ row.toList := Std.TreeSet.mem_toList.mpr mem
  rw [row_eq] at listed
  exact absurd listed (by decide)

end Tape

end LoopDiff
