import LoopDiff.Proofs.Tape.Dependency
import LoopDiff.Proofs.Tape.Derivatives

/-!
# LoopDiff.Proofs.Tape.Zeros

Second derivatives outside of the sparsity of a tape, in exact arithmetic.

Sparsity is told by the structure of a tape, before there are numbers.  What
it leaves out is zero at all inputs: a second derivative by two inputs that
meet in no operation behind a weighted output.  First derivatives do not need
the rules of differentiation for that (`LoopDiff.Proofs.Tape.Reachability`).
-/

namespace LoopDiff

namespace Tape

variable {F : Type} [Field F] [Scalar F] [ExactScalar F] [PowerRule F] {t : Tape F}

/-- The second derivatives outside of the Hessian sparsity of some outputs
are zero, if no other output has a weight. -/
theorem WellFormed.hessianEntries_eq_zero (wf : t.WellFormed) {xs weights : List F}
    {selected : List Nat} {pairs : PairSet} (len : xs.length = t.inputCount)
    (len' : weights.length = t.outputCount) (outputs : ∀ k ∈ selected, k < t.outputCount)
    (silent : ∀ k w, weights[k]? = some w → k ∉ selected → w = 0)
    (inside : ∀ e ∈ pairs, e.1 < t.inputCount ∧ e.2 < t.inputCount) :
    ∃ S, t.hessianSparsityFor selected = .ok S ∧
      t.Returns 2 (t.hessianEntries xs weights pairs) fun E =>
        (∀ e, e ∈ E ↔ e ∈ pairs) ∧ ∀ e ∈ pairs, e ∉ S → E[e]? = some 0 := by
  obtain ⟨S, sparsity, meets⟩ := exists_ok_of_yields (wf.yields_hessianSparsityFor outputs)
  refine ⟨S, sparsity, (wf.returns_hessianEntries len len' inside).mono ?_⟩
  rintro E ⟨requested, entry⟩
  refine ⟨requested, fun e he out => ?_⟩
  have apart : ¬t.Meet (selected.map t.outputAt) e.1 e.2 := mt (meets e.1 e.2).mpr out
  rw [entry e he]
  refine congrArg some (Finset.sum_eq_zero fun k hk => ?_)
  -- A selected output has no such derivative, and any other has no weight.
  by_cases mem : k ∈ selected
  · rw [wf.secondAt_eq_zero _ apart (List.mem_map_of_mem mem), mul_zero]
  · have hw := List.getElem?_eq_getElem (len' ▸ Finset.mem_range.mp hk : k < weights.length)
    rw [List.getD_eq_getElem?_getD, hw, Option.getD_some, silent k _ hw mem, zero_mul]

/-- A product, and a quotient of another input by one of its factors. -/
def sharedFactor : Tape ℚ :=
  ⟨#[.input, .input, .input, .binary .mul 0 (some 1), .binary .div 2 (some 1)], 3, [3, 4]⟩

/-- The quotient has second derivatives, but no weight. -/
theorem entries_sharedFactor : ∃ (S : PairSet) (E : PairMap ℚ),
    sharedFactor.hessianSparsityFor [0] = .ok S ∧
      (sharedFactor.hessianEntries [2, 5, 3] [7, 0] (.ofList [(0, 1), (1, 2)]) :
        Except Failure (PairMap ℚ)) = .ok E ∧
      S.toList = [(0, 1), (1, 0)] ∧ E[((1, 2) : Nat × Nat)]? = some 0 := by
  have wf : sharedFactor.WellFormed := of_decide_eq_true rfl
  have inside (e : Nat × Nat) (h : e ∈ (.ofList [(0, 1), (1, 2)] : PairSet)) :
      e.1 < 3 ∧ e.2 < 3 := by
    have : e = (0, 1) ∨ e = (1, 2) := by simpa using h
    rcases this with rfl | rfl <;> decide
  have silent (k : Nat) (w : ℚ) (hw : [7, 0][k]? = some w) (out : k ∉ [0]) : w = 0 := by
    match k with
    | 0 => simp at out
    | 1 => simpa using hw.symm
    | k + 2 => simp at hw
  have pattern : (sharedFactor.hessianSparsityFor [0]).map (·.toList) = .ok [(0, 1), (1, 0)] := by
    decide +kernel
  obtain ⟨S, sparsity, returns⟩ := @WellFormed.hessianEntries_eq_zero ℚ _ _ _ _ sharedFactor
    wf [2, 5, 3] [7, 0] [0] (.ofList [(0, 1), (1, 2)]) rfl rfl (by decide) silent inside
  obtain ⟨E, run, -, zero⟩ := returns.exists_ok (by decide +kernel)
  rw [sparsity] at pattern
  have pattern : S.toList = [(0, 1), (1, 0)] := Except.ok.inj pattern
  refine ⟨S, E, sparsity, run, pattern, zero (1, 2) (by simp) ?_⟩
  rw [← Std.TreeSet.mem_toList, pattern]
  decide

end Tape

end LoopDiff
