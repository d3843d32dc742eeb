import LoopDiff.Proofs.Model.Derivatives

/-!
# LoopDiff.Proofs.Model.Curvature

Second derivatives of the weighted dependents of a model.

They are read off dual numbers over dual numbers: the independents are seeded
for the row and, beneath, for the column (`seededTwice`), and the tangent of
the tangent of a dependent is its second derivative.

For the equations of a loop the chain rule has two parts
(`Model.curvatureAt`).  Every pair of inputs contributes its second derivative,
times the derivatives of the inputs by the row and by the column, and every
input contributes its first derivative, times its own second derivative.  Only
temporaries have one (`Model.inputSecond_eq`).

Independents that do not meet have no second derivative
(`Model.Accepted.curvature_eq_zero`).  Running a model on dual numbers over dual
numbers gives the second derivatives (`Model.Accepted.secondDerivative_eq`).
-/

namespace LoopDiff

variable {F R : Type} [Scalar F] [Elementary R] [Embeds F R]

/-! ## Seeds -/

/-- The numbers `x`, with the tangents of the row `r` over those of the
column `c`. -/
def seededTwice (x : Nat → R) (r c : Nat) : Nat → Dual (Dual R) := seeded (seeded x c) r

theorem swap_seededTwice (x : Nat → R) (r c j : Nat) :
    Dual.swap (seededTwice x r c j) = seededTwice x c r j := by
  simp only [seededTwice, seeded, Dual.swap]
  split_ifs <;> rfl

/-- The weight of an equation of a loop at an iteration: that of the
dependent it computes. -/
def Loop.weightAt (l : Loop F) (ω : Nat → R) (it e : Nat) : R :=
  ((l.dependents[e]?).bind fun row => row[it]?).elim 0 ω

/-- The weight of an output of the outer tape.  A temporary has none. -/
def Outer.weightAt (o : Outer F) (ω : Nat → R) (i : Nat) : R := (o.dependents[i]?).elim 0 ω

namespace Model

variable (m : Model F) {l : Loop F}

/-! ## Inputs -/

/-- The second derivative of an input of a loop by two independents. -/
def inputSecond (l : Loop F) (x : Nat → R) (it r c q : Nat) : R :=
  (m.inputAt l (seededTwice x r c) it q).eps.eps

/-- Only temporaries have second derivatives. -/
theorem inputSecond_eq (x : Nat → R) (it r c q : Nat) :
    m.inputSecond l x it r c q = (l.temporaryOf? q).elim 0 fun k => m.temporarySecond x r c k := by
  rw [inputSecond, inputAt, Loop.inputAt]
  cases l.temporaryOf? q with
  | some k =>
      simp only [Option.elim_some, temporaryAt, temporarySecond]
      cases m.outer? with
      | none => rfl
      | some o => rfl
  | none =>
      cases l.independentAt? q it with
      | none => rfl
      | some j =>
          simp only [Option.map_some, Option.getD_some, Option.elim_none, seededTwice, seeded]
          split <;> rfl

/-- The tangent of an input, without its own tangent, is its derivative by
the row. -/
theorem re_eps_inputAt [PowerRule R] (x : Nat → R) (it r c q : Nat) :
    (m.inputAt l (seededTwice x r c) it q).eps.re = m.inputPartial l x it r q := by
  have hom : IsHom F fun z : Dual (Dual R) => (Dual.swap z).re :=
    Dual.isHom_re.comp Dual.isHom_swap
  refine (congrArg Dual.eps (m.map_inputAt hom l (seededTwice x r c) it q)).trans ?_
  simp only [swap_seededTwice]
  rfl

/-! ## Equations -/

/-- The first derivative of the weighted equations of a loop by an input. -/
def loopPartial (l : Loop F) (x ω : Nat → R) (it p : Nat) : R :=
  Tape.weighted l.tape.outputCount l.tape.outputAt (l.weightAt ω it)
    (l.tape.partialAt (m.inputAt l x it) p)

/-- The second derivative of the weighted equations of a loop by two
inputs. -/
def loopSecond (l : Loop F) (x ω : Nat → R) (it p q : Nat) : R :=
  Tape.weighted l.tape.outputCount l.tape.outputAt (l.weightAt ω it)
    (l.tape.secondAt (m.inputAt l x it) p q)

/-- The two inputs can be exchanged. -/
theorem loopSecond_symm [PowerRule R] (wf : l.tape.WellFormed) (x ω : Nat → R) (it : Nat)
    {p q : Nat} (hp : p < l.tape.inputCount) :
    m.loopSecond l x ω it q p = m.loopSecond l x ω it p q := by
  rw [loopSecond, loopSecond]
  exact Finset.sum_congr rfl fun e _ => by rw [wf.secondAt_symm _ hp]

/-- The second derivative of an equation of a loop by two independents. -/
theorem eps_eps_equationAt [PowerRule R] (wf : l.tape.WellFormed) (x : Nat → R) (r c e it : Nat) :
    (m.equationAt l (seededTwice x r c) e it).eps.eps =
      ∑ p ∈ Finset.range l.tape.inputCount,
        (m.inputPartial l x it r p * (∑ q ∈ Finset.range l.tape.inputCount,
            m.inputPartial l x it c q *
              l.tape.secondAt (m.inputAt l x it) p q (l.tape.outputAt e)) +
          m.inputSecond l x it r c p *
            l.tape.partialAt (m.inputAt l x it) p (l.tape.outputAt e)) := by
  rw [equationAt, wf.eps_eps_valueAt]
  simp only [re_eps_inputAt, re_inputAt]
  rfl

/-- What an iteration of a loop contributes to the second derivative of the
weighted dependents by two independents. -/
def curvatureAt (l : Loop F) (x ω : Nat → R) (r c it : Nat) : R :=
  (∑ p ∈ Finset.range l.tape.inputCount, ∑ q ∈ Finset.range l.tape.inputCount,
      m.inputPartial l x it r p * m.inputPartial l x it c q * m.loopSecond l x ω it p q) +
    ∑ p ∈ Finset.range l.tape.inputCount,
      m.inputSecond l x it r c p * m.loopPartial l x ω it p

/-- The chain rule for the weighted equations of a loop. -/
theorem sum_weightAt [PowerRule R] (wf : l.tape.WellFormed) (x ω : Nat → R) (r c it : Nat) :
    (∑ e ∈ Finset.range l.tape.outputCount,
      l.weightAt ω it e * (m.equationAt l (seededTwice x r c) e it).eps.eps) =
        m.curvatureAt l x ω r c it := by
  simp only [m.eps_eps_equationAt wf, curvatureAt, loopSecond, loopPartial, Tape.weighted,
    Finset.mul_sum, mul_add, Finset.sum_add_distrib]
  congr 1
  · rw [Finset.sum_comm]
    refine Finset.sum_congr rfl fun p _ => ?_
    rw [Finset.sum_comm]
    exact Finset.sum_congr rfl fun q _ => Finset.sum_congr rfl fun e _ => by ring
  · rw [Finset.sum_comm]
    exact Finset.sum_congr rfl fun p _ => Finset.sum_congr rfl fun e _ => by ring

/-! ## Dependents -/

/-- The second derivative of some dependents, weighted with `ω`. -/
def curvature (ω : Nat → R) (Y : Nat → Dual (Dual R)) (ds : List Nat) : R :=
  (ds.map fun d => ω d * (Y d).eps.eps).sum

theorem curvature_append (ω : Nat → R) (Y : Nat → Dual (Dual R)) (ds ds' : List Nat) :
    curvature ω Y (ds ++ ds') = curvature ω Y ds + curvature ω Y ds' := by
  rw [curvature, List.map_append, List.sum_append]
  rfl

theorem curvature_flatMap {α : Type} (ω : Nat → R) (Y : Nat → Dual (Dual R)) (xs : List α)
    (f : α → List Nat) :
    curvature ω Y (xs.flatMap f) = (xs.map fun x => curvature ω Y (f x)).sum :=
  sum_map_flatMap xs f _

variable {m} {x ω : Nat → R} {r c : Nat} {Y : Nat → Dual (Dual R)}

/-- The dependents of a loop contribute iteration by iteration. -/
theorem Computes.curvature_loop [PowerRule R] (computes : m.Computes (seededTwice x r c) Y)
    (hl : l ∈ m.loops) (valid : l.Valid) (wf : l.tape.WellFormed) :
    curvature ω Y (l.dependents.flatMap Array.toList) =
      ∑ it ∈ Finset.range l.iterations, m.curvatureAt l x ω r c it := by
  have row {e : Nat} {row : Array Nat} (hrow : l.dependents[e]? = some row) :
      curvature ω Y row.toList = ∑ it ∈ Finset.range l.iterations,
        l.weightAt ω it e * (m.equationAt l (seededTwice x r c) e it).eps.eps := by
    have size := valid.size_eq (List.mem_append_left _ (List.mem_of_getElem? hrow))
    rw [← size, ← Array.length_toList, curvature]
    refine sum_map_eq_sum_range fun it d hd => ?_
    have hd : row[it]? = some d := by simpa using hd
    rw [computes.loop hl e row hrow it d hd, Loop.weightAt, hrow, Option.bind_some, hd,
      Option.elim_some]
  simp only [← m.sum_weightAt wf]
  rw [Finset.sum_comm, ← valid.outputs, curvature_flatMap]
  exact sum_map_eq_sum_range fun e row' hrow => row hrow

/-! ## Dependents outside of loops -/

/-- The dependents of the outer part contribute what its tape does. -/
theorem Computes.curvature_outer (computes : m.Computes (seededTwice x r c) Y) {o : Outer F}
    (ho : m.outer? = some o) (valid : o.Valid) :
    curvature ω Y o.dependents =
      Tape.weighted o.tape.outputCount o.tape.outputAt (o.weightAt ω) (o.tape.secondAt x r c) := by
  have weight {i : Nat} (beyond : o.dependents.length ≤ i) : o.weightAt ω i = 0 := by
    rw [Outer.weightAt, List.getElem?_eq_none beyond, Option.elim_none]
  rw [Tape.weighted, ← valid.outputs, Finset.sum_range_add]
  simp only [weight (Nat.le_add_right ..), zero_mul, Finset.sum_const_zero, add_zero]
  refine sum_map_eq_sum_range fun i d hd => ?_
  rw [computes.outer ho i d hd, Outer.weightAt, hd, Option.elim_some]
  rfl

/-! ## Zeros -/

theorem weighted_eq_zero {n : Nat} {o : Nat → Nat} {ω τ : Nat → R}
    (zero : ∀ k < n, τ (o k) = 0) : Tape.weighted n o ω τ = 0 :=
  Finset.sum_eq_zero fun k hk => by rw [zero k (Finset.mem_range.mp hk), mul_zero]

theorem loopPartial_eq_zero (wf : l.tape.WellFormed) (x ω : Nat → R) (it : Nat) {p : Nat}
    (free : ¬∃ out ∈ l.tape.outputs, l.tape.DependsOn out p) : m.loopPartial l x ω it p = 0 :=
  weighted_eq_zero fun _ hk => wf.partialAt_eq_zero _ fun reaches =>
    free ⟨_, Tape.outputAt_mem hk, reaches⟩

theorem loopSecond_eq_zero [PowerRule R] (wf : l.tape.WellFormed) (x ω : Nat → R) (it : Nat)
    {p q : Nat} (free : ¬l.tape.Meet l.tape.outputs p q) : m.loopSecond l x ω it p q = 0 :=
  weighted_eq_zero fun _ hk => wf.secondAt_eq_zero _ free (Tape.outputAt_mem hk)

theorem Accepted.temporarySecond_eq_zero [PowerRule R] (accepted : m.Accepted) (x : Nat → R)
    {r c k : Nat} (free : ∀ o, m.outer? = some o →
      ¬o.tape.Meet [o.tape.outputAt (o.temporaryOutput k)] r c) : m.temporarySecond x r c k = 0 := by
  rw [temporarySecond]
  cases ho : m.outer? with
  | none => rfl
  | some o =>
      exact (accepted.outerTape ho).secondAt_eq_zero x (free o ho) (List.mem_singleton_self _)

/-- An iteration of a loop contributes nothing to independents that do not
meet. -/
theorem Accepted.curvatureAt_eq_zero [PowerRule R] (accepted : m.Accepted) (hl : l ∈ m.loops)
    (x ω : Nat → R) {r c it : Nat} (hit : it < l.iterations) (free : ¬m.Meet r c) :
    m.curvatureAt l x ω r c it = 0 := by
  have wf := accepted.loopTape hl
  rw [curvatureAt, Finset.sum_eq_zero, Finset.sum_eq_zero, add_zero]
  · intro p _
    rw [inputSecond_eq]
    cases ht : l.temporaryOf? p with
    | none => rw [Option.elim_none, zero_mul]
    | some k =>
        by_cases used : ∃ out ∈ l.tape.outputs, l.tape.DependsOn out p
        · rw [Option.elim_some, accepted.temporarySecond_eq_zero, zero_mul]
          exact fun o ho meet => free (.inr ⟨l, hl, .inr ⟨o, ho, p, k, ht, used, meet⟩⟩)
        · rw [loopPartial_eq_zero wf x ω it used, mul_zero]
  · intro p _
    refine Finset.sum_eq_zero fun q _ => ?_
    by_cases meet : l.tape.Meet l.tape.outputs p q
    · by_cases row : m.Behind l it p r
      · rw [accepted.inputPartial_eq_zero x fun col =>
          free (.inr ⟨l, hl, .inl ⟨it, hit, p, q, meet, .inl ⟨row, col⟩⟩⟩), mul_zero, zero_mul]
      · rw [accepted.inputPartial_eq_zero x row, zero_mul, zero_mul]
    · rw [loopSecond_eq_zero wf x ω it meet, mul_zero]

/-- Independents that do not meet outside of loops have no second derivative
there. -/
theorem Computes.curvature_outer_eq_zero [PowerRule R] (computes : m.Computes (seededTwice x r c) Y)
    {o : Outer F} (ho : m.outer? = some o) (valid : o.Valid) (wf : o.tape.WellFormed)
    (free : ¬o.tape.Meet ((List.range o.dependents.length).map o.tape.outputAt) r c) :
    curvature ω Y o.dependents = 0 := by
  rw [computes.curvature_outer ho valid, Tape.weighted]
  refine Finset.sum_eq_zero fun i _ => ?_
  cases hd : o.dependents[i]? with
  | none => rw [Outer.weightAt, hd, Option.elim_none, zero_mul]
  | some d =>
      have lt := (List.getElem?_eq_some_iff.mp hd).1
      rw [wf.secondAt_eq_zero x free (List.mem_map_of_mem (List.mem_range.mpr lt)), mul_zero]

/-- Independents that do not meet have no second derivative. -/
theorem Accepted.curvature_eq_zero [PowerRule R] (accepted : m.Accepted)
    (computes : m.Computes (seededTwice x r c) Y) (free : ¬m.Meet r c) :
    curvature ω Y (computed m.outer? m.loops) = 0 := by
  have outside : curvature ω Y (m.outer?.elim [] fun o => o.dependents) = 0 := by
    cases ho : m.outer? with
    | none => rfl
    | some o =>
        exact computes.curvature_outer_eq_zero ho (accepted.outer ho) (accepted.outerTape ho)
          fun meet => free (.inl ⟨o, ho, meet⟩)
  rw [computed, curvature_append, outside, zero_add, curvature_flatMap]
  refine List.sum_eq_zero fun y hy => ?_
  obtain ⟨l, hl, rfl⟩ := List.mem_map.mp hy
  rw [computes.curvature_loop hl (accepted.loop hl) (accepted.loopTape hl)]
  exact Finset.sum_eq_zero fun it hit =>
    accepted.curvatureAt_eq_zero hl x ω (Finset.mem_range.mp hit) free

/-- The row and the column can be exchanged. -/
theorem Computes.curvature_symm [PowerRule R] {Y' : Nat → Dual (Dual R)} (valid : m.Valid)
    (computes : m.Computes (seededTwice x r c) Y) (computes' : m.Computes (seededTwice x c r) Y')
    {ds : List Nat} (inside : ∀ d ∈ ds, d < m.range) : curvature ω Y ds = curvature ω Y' ds := by
  have swapped := computes.map Dual.isHom_swap
  simp only [swap_seededTwice] at swapped
  refine congrArg List.sum (List.map_congr_left fun d hd => ?_)
  rw [← swapped.eq valid computes' (inside d hd)]
  rfl

/-! ## Runs on dual numbers over dual numbers -/

variable {F : Type} [Field F] [Scalar F]

/-- The second derivative of the dependents by the independents `r` and `c`,
weighted with `ws`: the tangents of the tangents of the dependents when the
model is run on dual numbers over dual numbers. -/
def secondDerivative (m : Model F) (xs ws : List F) (r c : Nat) : Except Failure F := do
  let ys : List (Dual (Dual F)) ← m.run (← Tape.seedInput (← Tape.seedInput xs c) r)
  return ((ws.zip ys).map fun (w, y) => w * y.eps.eps).sum

/-- In exact arithmetic the second derivatives are those of the dependents. -/
theorem Accepted.secondDerivative_eq [ExactScalar F] [PowerRule F] {m : Model F}
    (accepted : m.Accepted) (exponents : m.Exponents (Exponent.Lowers 2)) {xs ws : List F}
    (domain : xs.length = m.domain) (range : ws.length = m.range) {r c : Nat} (hr : r < m.domain)
    (hc : c < m.domain) {Y : Nat → Dual (Dual F)}
    (computes : m.Computes (seededTwice (fun i => embed (xs.getD i Scalar.zero)) r c) Y) :
    m.secondDerivative xs ws r c = .ok (curvature (fun d => embed (ws.getD d Scalar.zero)) Y
      (computed m.outer? m.loops)) := by
  let I : Interpretation (Except Failure) F F F := .plain _ F F
  have takes : I.dual.dual.Takes 2 := Interpretation.takes_plain.dual.dual
  suffices yields : Yields (m.secondDerivative xs ws r c) () fun v _ =>
      v = curvature (fun d => embed (ws.getD d Scalar.zero)) Y (computed m.outer? m.loops) by
    obtain ⟨v, hv, rfl⟩ := exists_ok_of_yields yields
    exact hv
  refine Yields.bind (Tape.yields_seedInput I (domain.symm ▸ hc)
    (Interpretation.meansAll_plain xs)) fun us _ _ ⟨count, means⟩ => ?_
  refine Yields.bind (Tape.yields_seedInput I.dual (count.trans domain ▸ hr) means)
    fun us' _ _ ⟨count', means'⟩ => ?_
  refine Yields.bind (accepted.yields_run I.dual.dual (exponents.mono takes)
    (count'.trans (count.trans domain)) means' computes) fun ys _ _ ⟨length, values⟩ => ?_
  refine yields_pure ?_
  have size : (ws.zip ys).length = m.range := by rw [List.length_zip, range, length, min_self]
  have weighted : ((ws.zip ys).map fun (w, y) => w * y.eps.eps).sum = ∑ d ∈ Finset.range m.range,
      embed (ws.getD d Scalar.zero) * (Y d).eps.eps := by
    rw [← size]
    refine sum_map_eq_sum_range fun d (w, y) he => ?_
    obtain ⟨hw, hy⟩ := List.getElem?_zip_eq_some.mp he
    have value : y.eps.eps = (Y d).eps.eps := (values d y (by simpa using hy)).2.2
    rw [List.getD_eq_getElem?_getD, hw, Option.getD_some, ← value]
    rfl
  exact weighted.trans (accepted.valid.covers.map _).sum_eq.symm

end Model

end LoopDiff
