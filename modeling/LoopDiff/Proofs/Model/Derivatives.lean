import LoopDiff.Proofs.Model.Dependency
import LoopDiff.Proofs.Model.Evaluation
import LoopDiff.Proofs.Tape.Lenient

/-!
# LoopDiff.Proofs.Model.Derivatives

Derivatives of the equations of a model by its independents.

An input of a loop is an independent or a temporary, and its derivative by
an independent is accordingly zero or one, or that of the temporary
(`Model.inputPartial_eq`).  The derivative of an equation is the sum, over
the inputs of its loop, of what each contributes by the chain rule
(`eps_equationAt`).

A dependent has derivative zero by an independent that it does not depend on
(`Accepted.eps_eq_zero`).  Running a model on dual numbers gives the
derivatives (`Accepted.derivative_eq`).
-/

namespace LoopDiff

variable {F R : Type} [Scalar F] [Elementary R] [Embeds F R]

namespace Model

variable (m : Model F) {l : Loop F}

theorem re_inputAt (l : Loop F) (u : Nat → Dual R) (it q : Nat) :
    (m.inputAt l u it q).re = m.inputAt l (fun j => (u j).re) it q :=
  m.map_inputAt Dual.isHom_re l u it q

/-- The derivative of a temporary by an independent. -/
def temporaryPartial (x : Nat → R) (j k : Nat) : R := (m.temporaryAt (seeded x j) k).eps

theorem temporaryPartial_eq {m : Model F} {o : Outer F} (ho : m.outer? = some o) (x : Nat → R)
    (j k : Nat) : m.temporaryPartial x j k =
      o.tape.partialAt x j (o.tape.outputAt (o.temporaryOutput k)) := by
  rw [temporaryPartial, temporaryAt, ho]
  rfl

/-- The second derivative of a temporary by two independents. -/
def temporarySecond (x : Nat → R) (i j k : Nat) : R :=
  m.outer?.elim 0 fun o => o.tape.secondAt x i j (o.tape.outputAt (o.temporaryOutput k))

/-- The derivative of an input of a loop by an independent. -/
def inputPartial (l : Loop F) (x : Nat → R) (it j q : Nat) : R :=
  (m.inputAt l (seeded x j) it q).eps

theorem inputPartial_eq (x : Nat → R) (it j q : Nat) : m.inputPartial l x it j q =
    match l.temporaryOf? q with
    | some k => m.temporaryPartial x j k
    | none => if l.independentAt? q it = some j then 1 else 0 := by
  rw [inputPartial, inputAt, Loop.inputAt]
  cases l.temporaryOf? q with
  | some k => rfl
  | none =>
      cases l.independentAt? q it with
      | none => rfl
      | some i => simp [seeded]

/-- The derivative of an equation of a loop by an independent. -/
theorem eps_equationAt (wf : l.tape.WellFormed) (x : Nat → R) (j e it : Nat) :
    (m.equationAt l (seeded x j) e it).eps = ∑ q ∈ Finset.range l.tape.inputCount,
      m.inputPartial l x it j q * l.tape.partialAt (m.inputAt l x it) q (l.tape.outputAt e) := by
  rw [equationAt, wf.eps_valueAt, funext (m.re_inputAt l (seeded x j) it)]
  rfl

/-! ## Zero derivatives -/

variable {m}

theorem Accepted.temporaryPartial_eq_zero (accepted : m.Accepted) (x : Nat → R) {j k : Nat}
    (free : ¬m.TemporaryDependsOn k j) : m.temporaryPartial x j k = 0 := by
  cases ho : m.outer? with
  | none => rw [temporaryPartial, temporaryAt, ho]; rfl
  | some o =>
      rw [temporaryPartial_eq ho]
      exact (accepted.outerTape ho).partialAt_eq_zero x fun h => free ⟨o, ho, h⟩

/-- An independent that is not behind an input does not move it. -/
theorem Accepted.inputPartial_eq_zero (accepted : m.Accepted) (x : Nat → R) {it j q : Nat}
    (free : ¬m.Behind l it q j) : m.inputPartial l x it j q = 0 := by
  rw [Behind] at free
  rw [inputPartial_eq]
  cases ht : l.temporaryOf? q with
  | some k =>
      rw [ht] at free
      exact accepted.temporaryPartial_eq_zero x free
  | none =>
      rw [ht] at free
      exact if_neg free

/-- A dependent does not move with an independent that it does not depend
on. -/
theorem Accepted.eps_eq_zero (accepted : m.Accepted) {x : Nat → R} {j d : Nat} {Y : Nat → Dual R}
    (computes : m.Computes (seeded x j) Y) (hd : d < m.range) (free : ¬m.Depends d j) :
    (Y d).eps = 0 := by
  rcases accepted.valid.exists_equation hd with ⟨o, i, ho, hi⟩ | ⟨l, hl, e, row, it, he, hit⟩
  · rw [computes.outer ho i d hi]
    exact (accepted.outerTape ho).partialAt_eq_zero x fun h => free (.inl ⟨o, ho, i, hi, h⟩)
  · rw [computes.loop hl e row he it d hit, eps_equationAt m (accepted.loopTape hl)]
    refine Finset.sum_eq_zero fun q _ => ?_
    by_cases reaches : l.tape.DependsOn (l.tape.outputAt e) q
    · rw [accepted.inputPartial_eq_zero x fun h =>
        free (.inr ⟨l, hl, e, row, it, he, hit, q, reaches, h⟩), zero_mul]
    · rw [(accepted.loopTape hl).partialAt_eq_zero _ reaches, mul_zero]

end Model

/-! ## Runs on dual numbers -/

namespace Model

section

variable {μ : Type → Type} [Monad μ] [MonadExceptOf Failure μ]

/-- The derivative of the dependent `d` by the independent `j`: the tangent
of the dependent when the model is run on dual numbers. -/
def derivative (m : Model F) (xs : List F) (d j : Nat) : μ F := do
  let ys : List (Dual F) ← m.run (← Tape.seedInput xs j)
  return (← present ys[d]?).eps

end

section

variable {F : Type} [Field F] [Scalar F] [ExactScalar F] [PowerRule F] {m : Model F}
  (accepted : m.Accepted) {xs : List F} {d j : Nat}

include accepted

theorem Accepted.yields_derivative {μ : Type → Type} [Monad μ] [MonadExceptOf Failure μ]
    [Worlds μ Unit] (exponents : m.Exponents (Interpretation.plain μ F F).dual.exponent)
    (len : xs.length = m.domain) (hd : d < m.range) (hj : j < m.domain) {Y : Nat → Dual F}
    (computes : m.Computes (seeded (fun i => embed (xs.getD i Scalar.zero)) j) Y) :
    Yields (m.derivative xs d j : μ F) () fun v _ => v = (Y d).eps := by
  let I : Interpretation μ F F F := .plain μ F F
  refine Yields.bind (Tape.yields_seedInput I (len.symm ▸ hj)
    (Interpretation.meansAll_plain xs)) fun us _ _ ⟨count, means⟩ => ?_
  refine Yields.bind (accepted.yields_run I.dual exponents (count.trans len) means computes)
    fun ys _ _ ⟨range, values⟩ => ?_
  have lt : d < ys.length := range.symm ▸ hd
  refine yields_present_bind (List.getElem?_eq_getElem lt) (yields_pure ?_)
  exact (values d _ (by simp [lt])).2

/-- In exact arithmetic the derivatives are those of the dependents. -/
theorem Accepted.derivative_eq (exponents : m.Exponents (Exponent.Lowers 1))
    (len : xs.length = m.domain) (hd : d < m.range) (hj : j < m.domain) {Y : Nat → Dual F}
    (computes : m.Computes (seeded (fun i => embed (xs.getD i Scalar.zero)) j) Y) :
    (m.derivative xs d j : Except Failure F) = .ok (Y d).eps := by
  obtain ⟨v, hv, rfl⟩ := exists_ok_of_yields (accepted.yields_derivative (μ := Except Failure)
    (exponents.mono Interpretation.takes_plain.dual) len hd hj computes)
  exact hv

/-- A run on dual numbers crashes at an exponent that cannot be lowered,
whatever is derived. -/
theorem Accepted.derivative_crash (low : ¬m.Exponents (Exponent.Lowers 1))
    (len : xs.length = m.domain) (hd : d < m.range) (hj : j < m.domain) :
    (m.derivative xs d j : Except Failure F) = .error (.crash none) := by
  obtain ⟨Y, computes⟩ := m.exists_computes accepted.valid
    (seeded (fun i => (embed (xs.getD i Scalar.zero) : F)) j)
  have takes : (Interpretation.plain Lenient F F).dual.Takes 0 :=
    Interpretation.takes_plain.dual_lenient
  rcases Lenient.ok_or_crash (accepted.yields_derivative (μ := Lenient)
    ⟨fun o _ => takes.exponents o.tape, fun l _ => takes.exponents l.tape⟩ len hd hj computes)
    with ⟨v, returns, -⟩ | crash
  · obtain ⟨us, -, returns⟩ := bind_eq_ok returns
    obtain ⟨ys, run, -⟩ := bind_eq_ok returns
    exact absurd (accepted.exponents_of_run (exactPowers.dual (F := F)) run) low
  · exact crash

end

end Model

end LoopDiff
