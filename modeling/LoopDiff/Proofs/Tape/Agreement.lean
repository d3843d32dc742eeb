import LoopDiff.Proofs.Tape.Derivatives

/-!
# LoopDiff.Proofs.Tape.Agreement

Reverse sweeps against forward sweeps, in exact arithmetic.

`gradient` carries adjoints backward and `jacobianEntries` tangents forward,
with rules of their own.  Both compute the partial derivatives of the
outputs, so the adjoint of an input is the combination of its derivatives
with the weights of the outputs.

`hessianEntries` carries dual numbers backward.  A forward sweep over dual
numbers of dual numbers (`nestedEval`) has the second derivatives of every
output in the part that both differentiations share, so the combination of
these parts with the weights is the same entry, whichever input is taken
first.

Each run returns, or it crashes at an exponent that is too low
(`Tape.Returns`); the runs need not crash at the same tapes, and they agree
wherever they return.
-/

namespace LoopDiff

namespace Tape

variable {F : Type} [Field F] [Scalar F] [ExactScalar F] [PowerRule F] {t : Tape F}

/-- The gradient of the weighted outputs by an input combines the first
derivatives by this input with the weights, whatever other derivatives are
requested with them. -/
theorem WellFormed.gradient_eq_weighted_jacobian (wf : t.WellFormed) {xs weights : List F}
    {rows : List IndexSet} (len : xs.length = t.inputCount)
    (len' : weights.length = t.outputCount) (count : rows.length = t.outputCount)
    (inside : ∀ row ∈ rows, ∀ j ∈ row, j < t.inputCount) :
    t.Returns 1 (t.gradient xs weights) (fun ds => ds.length = t.inputCount) ∧
    t.Returns 1 (t.jacobianEntries xs rows)
      (fun E => ∀ i j, (i, j) ∈ E ↔ ∃ row, rows[i]? = some row ∧ j ∈ row) ∧
    ∀ ds E, (t.gradient xs weights : Except Failure (List F)) = .ok ds →
      (t.jacobianEntries xs rows : Except Failure (PairMap F)) = .ok E →
      ∀ j < t.inputCount, (∀ row ∈ rows, j ∈ row) →
        ∃ d : Nat → F, (∀ k < t.outputCount, E[(k, j)]? = some (d k)) ∧
          ds[j]? = some (∑ k ∈ Finset.range t.outputCount, weights.getD k 0 * d k) := by
  have backward := wf.returns_gradient len len'
  have forward := wf.returns_jacobianEntries len count inside
  refine ⟨backward.mono fun ds h => h.1, forward.mono fun E h i j => h.1 (i, j), ?_⟩
  intro ds E gradient entries j hj all
  obtain ⟨-, adjoints⟩ := backward.of_ok gradient
  obtain ⟨requested, tangents⟩ := forward.of_ok entries
  refine ⟨fun k => t.partialAt (fun l => xs.getD l Scalar.zero) j (t.outputAt k),
    fun k hk => ?_, adjoints j hj⟩
  have hrow := List.getElem?_eq_getElem (count.symm ▸ hk : k < rows.length)
  exact tangents (k, j) ((requested (k, j)).mpr ⟨_, hrow, all _ (List.mem_of_getElem? hrow)⟩)

/-- The square of an input times another, returned twice, next to an input
and a constant. -/
def reused : Tape ℚ :=
  ⟨#[.input, .input, .const 3, .binary .mul 0 (some 0), .binary .mul 3 (some 1)], 2, [4, 4, 0, 2]⟩

/-- The derivatives by the squared input. -/
theorem gradient_reused : ∃ (E : PairMap ℚ) (d : Nat → ℚ),
    (reused.jacobianEntries [2, 5] (List.replicate 4 (.ofList [0, 1])) :
      Except Failure (PairMap ℚ)) = .ok E ∧ (∀ k < 4, E[(k, 0)]? = some (d k)) ∧
        ∑ k ∈ Finset.range 4, [1, 2, 3, 4].getD k 0 * d k = 63 := by
  have wf : reused.WellFormed := of_decide_eq_true rfl
  have gradient : (reused.gradient [2, 5] [1, 2, 3, 4] : Except Failure (List ℚ)) =
      .ok [63, 12] := by
    decide +kernel
  have rows (row : IndexSet) (h : row ∈ List.replicate 4 (.ofList [0, 1])) (j : Nat) :
      j ∈ row ↔ j = 0 ∨ j = 1 := by
    rw [List.eq_of_mem_replicate h]
    simp
  obtain ⟨-, forward, agree⟩ :=
    @WellFormed.gradient_eq_weighted_jacobian ℚ _ _ _ _ reused wf [2, 5] [1, 2, 3, 4]
      (List.replicate 4 (.ofList [0, 1])) rfl rfl rfl fun row h j hj => by
        have := (rows row h j).mp hj
        show j < 2
        omega
  obtain ⟨E, entries, -⟩ := forward.exists_ok (by decide +kernel)
  obtain ⟨d, column, sum⟩ :=
    agree _ E gradient entries 0 (by decide) fun row h => (rows row h 0).mpr (.inl rfl)
  have first : some (63 : ℚ) = some _ := sum
  exact ⟨E, d, entries, column, (Option.some.inj first).symm⟩

/-! ## Second derivatives -/

section
variable {F : Type} [Scalar F]

/-- The outputs over dual numbers of dual numbers, with the input `j` as the
variable of the outer differentiation and `k` as that of the inner one. -/
def nestedEval (t : Tape F) (inputs : List F) (j k : Nat) :
    Except Failure (List (Dual (Dual F))) := do
  t.eval (← seedInput (← seedInput inputs k) j)

/-- The part of output `i` that both differentiations share. -/
def mixedPart [Zero F] (ys : List (Dual (Dual F))) (i : Nat) : F :=
  (ys.map fun y => y.eps.eps).getD i 0

end

/-- A forward sweep along two inputs gives the second derivatives of the
outputs by them. -/
theorem WellFormed.returns_nestedEval (wf : t.WellFormed) {xs : List F}
    (len : xs.length = t.inputCount) {j k : Nat} (hj : j < t.inputCount) (hk : k < t.inputCount) :
    t.Returns 2 (t.nestedEval xs j k) fun ys => ys.length = t.outputCount ∧
      ∀ i < t.outputCount, mixedPart ys i =
        t.secondAt (fun l => xs.getD l Scalar.zero) j k (t.outputAt i) := by
  have nested {m : Type → Type} {W : Type} [Monad m] [MonadExceptOf Failure m] [Worlds m W]
      [Preorder W] (w : W)
      (exponents : t.Exponents (Interpretation.plain m F F).dual.dual.exponent) :=
    (yields_seedInput (.plain m F F) (w := w) (len ▸ hk) (Interpretation.meansAll_plain xs)).bind
      fun us _ _ ⟨len₁, hu⟩ =>
        (yields_seedInput (Interpretation.plain m F F).dual (len₁.trans len ▸ hj) hu).bind
          fun vs _ _ ⟨len₂, hv⟩ =>
            wf.yields_eval (Interpretation.plain m F F).dual.dual exponents
              (len₂.trans (len₁.trans len)) hv
  have run : t.Returns 2 (t.nestedEval xs j k) _ := returns
    (fun exponents => nested (m := Except Failure) ()
      (exponents.mono Interpretation.takes_plain.dual.dual))
    (nested (m := Lenient) () (Interpretation.takes_plain.dual_lenient.dual_lenient.exponents t))
  refine run.mono fun ys outputs => ⟨outputs.length_eq.symm, fun i hi => ?_⟩
  have ho := List.getElem?_eq_getElem hi
  obtain ⟨y, hy, means⟩ := exists_right_of_forall₂ outputs ho
  have value : y.eps.eps = t.secondAt (fun l => xs.getD l Scalar.zero) j k t.outputs[i] :=
    means.2.2
  rw [mixedPart, List.getD_eq_getElem?_getD, List.getElem?_map, hy, outputAt_eq ho]
  exact value

/-- The second derivatives by one sweep forward and one backward combine the
shared parts of two nested sweeps forward with the weights, whichever of the
inputs is taken first, and are symmetric. -/
theorem WellFormed.hessianEntries_eq_nested (wf : t.WellFormed) {xs weights : List F}
    {pairs : PairSet} (len : xs.length = t.inputCount) (len' : weights.length = t.outputCount)
    (inside : ∀ e ∈ pairs, e.1 < t.inputCount ∧ e.2 < t.inputCount) :
    t.Returns 2 (t.hessianEntries xs weights pairs) (fun E => ∀ e, e ∈ E ↔ e ∈ pairs) ∧
    (∀ j < t.inputCount, ∀ k < t.inputCount,
      t.Returns 2 (t.nestedEval xs j k) fun ys => ys.length = t.outputCount) ∧
    ∀ E, (t.hessianEntries xs weights pairs : Except Failure (PairMap F)) = .ok E →
      ∀ j k, (j, k) ∈ pairs →
        (∀ ys, t.nestedEval xs j k = .ok ys ∨ t.nestedEval xs k j = .ok ys → E[(j, k)]? =
          some (∑ i ∈ Finset.range t.outputCount, weights.getD i 0 * mixedPart ys i)) ∧
        ((k, j) ∈ pairs → E[(k, j)]? = E[(j, k)]?) := by
  have reverse := wf.returns_hessianEntries len len' inside
  refine ⟨reverse.mono fun E h => h.1,
    fun j hj k hk => (wf.returns_nestedEval len hj hk).mono fun ys h => h.1, ?_⟩
  intro E run j k he
  obtain ⟨-, entry⟩ := reverse.of_ok run
  obtain ⟨hj, hk⟩ := inside (j, k) he
  let x (l : Nat) : F := xs.getD l Scalar.zero
  let second (j k : Nat) : F :=
    ∑ i ∈ Finset.range t.outputCount, weights.getD i 0 * t.secondAt x j k (t.outputAt i)
  have symm : second k j = second j k :=
    Finset.sum_congr rfl fun i _ => by rw [wf.secondAt_symm x hj]
  have sum {j k : Nat} {ys : List (Dual (Dual F))} (hj : j < t.inputCount)
      (hk : k < t.inputCount) (eval : t.nestedEval xs j k = .ok ys) :
      ∑ i ∈ Finset.range t.outputCount, weights.getD i 0 * mixedPart ys i = second j k := by
    obtain ⟨-, mixed⟩ := (wf.returns_nestedEval len hj hk).of_ok eval
    exact Finset.sum_congr rfl fun i hi => by rw [mixed i (Finset.mem_range.mp hi)]
  refine ⟨fun ys eval => ?_, fun he' => ?_⟩
  · rw [entry _ he]
    rcases eval with eval | eval
    · rw [sum hj hk eval]
    · rw [sum hk hj eval, symm]
  · rw [entry _ he', entry _ he]
    exact congrArg some symm

/-- The cube of a quotient divided once more, returned twice, next to a
power with a constant exponent. -/
def dividedCube : Tape ℚ :=
  ⟨#[.input, .input, .binary .div 0 (some 1), .powi 2 3, .unary .recip 1 none,
    .binary .mul 3 (some 4), .const 2, .binary .pow 1 (some 6)], 2, [5, 7, 5]⟩

/-- The second derivatives by the dividend and the divisor. -/
theorem nested_dividedCube : ∃ (E : PairMap ℚ) (ys : List (Dual (Dual ℚ))),
    (dividedCube.hessianEntries [4, 2] [1, 2, 3] (.ofList [(0, 1), (1, 0)]) :
      Except Failure (PairMap ℚ)) = .ok E ∧ dividedCube.nestedEval [4, 2] 0 1 = .ok ys ∧
        ys.map (fun y => y.eps.eps) = [-6, 0, -6] ∧
        E[((0, 1) : Nat × Nat)]? = some (-24) ∧ E[((1, 0) : Nat × Nat)]? = some (-24) := by
  have wf : dividedCube.WellFormed := of_decide_eq_true rfl
  have inside (e : Nat × Nat) (h : e ∈ (.ofList [(0, 1), (1, 0)] : PairSet)) :
      e.1 < 2 ∧ e.2 < 2 := by
    have : e = (0, 1) ∨ e = (1, 0) := by simpa using h
    rcases this with rfl | rfl <;> decide
  have parts : (dividedCube.nestedEval [4, 2] 0 1).map (List.map fun y => y.eps.eps) =
      .ok [-6, 0, -6] := by
    decide +kernel
  have exponents : dividedCube.Exponents (Exponent.Lowers 2) := by decide +kernel
  obtain ⟨returns, nested, agree⟩ := @WellFormed.hessianEntries_eq_nested ℚ _ _ _ _ dividedCube wf
    [4, 2] [1, 2, 3] (.ofList [(0, 1), (1, 0)]) rfl rfl inside
  obtain ⟨E, run, -⟩ := returns.exists_ok exponents
  obtain ⟨ys, eval, -⟩ := (nested 0 (by decide) 1 (by decide)).exists_ok exponents
  obtain ⟨mixed, symm⟩ := agree E run 0 1 (by simp)
  have mixed := mixed ys (.inl eval)
  have symm := symm (by simp)
  rw [eval] at parts
  have parts : ys.map (fun y => y.eps.eps) = [-6, 0, -6] := Except.ok.inj parts
  have value : E[((0, 1) : Nat × Nat)]? = some (-24) := by
    rw [mixed]
    simp only [mixedPart, parts]
    decide +kernel
  exact ⟨E, ys, run, eval, parts, value, symm.trans value⟩

end Tape

end LoopDiff
