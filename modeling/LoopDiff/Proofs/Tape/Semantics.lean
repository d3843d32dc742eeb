import LoopDiff.Proofs.Elementary
import LoopDiff.Tape.Basic
import Mathlib.Algebra.BigOperators.Ring.Finset

/-!
# LoopDiff.Proofs.Tape.Semantics

The meaning of a tape in a ring, and its derivatives.

`Tape.valueAt` is the value of an entry as a function of the inputs.  The
tangent of an entry is the tangent part of its value over dual numbers, and
a partial derivative is the tangent in the direction of one input
(`partialAt`); doing this twice gives the second partial derivatives
(`secondAt`).

Everything else follows from two facts.  Values commute with homomorphisms
(`map_valueAt`), and the tangent of an operation is linear in the tangents
of its operands (`Entry.tangent_sum`).  The chain rules `eps_valueAt` and
`eps_eps_valueAt` express the tangents along any direction by partial
derivatives, and second partial derivatives are symmetric because the two
tangents of a twice dual number can be exchanged.
-/

namespace LoopDiff

open Elementary (byLeft byRight slopeUnary slopePowi)

variable {F R S : Type} [Scalar F] [Elementary R] [Embeds F R] [Elementary S] [Embeds F S]

/-! ## Well-formed tapes -/

namespace Entry

/-- The positions that are looked at when the entry is run. -/
def reads : Entry F → List Nat
  | input | const _ => []
  | powi arg _ => [arg]
  | unary _ arg second => arg :: second.toList
  | binary _ left right => left :: right.toList

/-- Whether the entry is an input. -/
def isInput : Entry F → Bool
  | input => true
  | _ => false

/-- The exponent of an integer power. -/
def exponent? : Entry F → Option Int32
  | powi _ n => some n
  | _ => none

/-- Whether the entry has the operands its operation needs. -/
def complete : Entry F → Bool
  | binary _ _ right => right.isSome
  | _ => true

omit [Scalar F] in
theorem mem_reads_of_mem_args {e : Entry F} {a : Nat} (h : a ∈ e.args) : a ∈ e.reads := by
  cases e with
  | unary op arg second =>
      rw [args, List.mem_singleton] at h
      exact h ▸ List.mem_cons_self ..
  | _ => exact h

end Entry

namespace Tape

/-- A tape whose inputs come first and in order, and whose entries and
outputs name entries that are there already. -/
structure WellFormed (t : Tape F) : Prop where
  input_iff (i : Nat) : (∃ e, t.entries[i]? = some e ∧ e.isInput) ↔ i < t.inputCount
  reads_lt {i : Nat} {e : Entry F} : t.entries[i]? = some e → ∀ a ∈ e.reads, a < i
  complete {i : Nat} {e : Entry F} : t.entries[i]? = some e → e.complete
  output_lt : ∀ o ∈ t.outputs, o < t.size

omit [Scalar F] in
/-- `WellFormed` as a check of every entry. -/
theorem wellFormed_iff (t : Tape F) : t.WellFormed ↔
    (∀ i (h : i < t.entries.size), t.entries[i].isInput = decide (i < t.inputCount) ∧
      (∀ a ∈ t.entries[i].reads, a < i) ∧ t.entries[i].complete) ∧
    t.inputCount ≤ t.size ∧ ∀ o ∈ t.outputs, o < t.size := by
  constructor
  · intro wf
    refine ⟨fun i h => ?_, ?_, wf.output_lt⟩
    · have he := Array.getElem?_eq_getElem h
      refine ⟨?_, wf.reads_lt he, wf.complete he⟩
      rw [Bool.eq_iff_iff, decide_eq_true_iff, ← wf.input_iff i]
      exact ⟨fun input => ⟨_, he, input⟩, fun ⟨e, he', input⟩ => by
        cases he.symm.trans he'
        exact input⟩
    · refine Nat.le_of_not_lt fun lt => ?_
      obtain ⟨e, he, -⟩ := (wf.input_iff t.size).mpr lt
      exact absurd (Array.getElem?_eq_some_iff.mp he).1 (Nat.lt_irrefl _)
  · rintro ⟨entries, le, outputs⟩
    refine ⟨fun i => ⟨?_, fun lt => ?_⟩, fun {i e} he => ?_, fun {i e} he => ?_, outputs⟩
    · rintro ⟨e, he, input⟩
      obtain ⟨h, rfl⟩ := Array.getElem?_eq_some_iff.mp he
      simpa [(entries i h).1] using input
    · have h : i < t.entries.size := lt_of_lt_of_le lt le
      exact ⟨_, Array.getElem?_eq_getElem h, by simpa [(entries i h).1] using lt⟩
    · obtain ⟨h, rfl⟩ := Array.getElem?_eq_some_iff.mp he
      exact (entries i h).2.1
    · obtain ⟨h, rfl⟩ := Array.getElem?_eq_some_iff.mp he
      exact (entries i h).2.2

instance (t : Tape F) : Decidable t.WellFormed := decidable_of_iff _ t.wellFormed_iff.symm

/-- Every integer power of the tape has an exponent with a property. -/
def Exponents (t : Tape F) (P : Int32 → Prop) : Prop :=
  ∀ (i arg : Nat) (n : Int32), t.entries[i]? = some (.powi arg n) → P n

omit [Scalar F] in
theorem Exponents.mono {t : Tape F} {P Q : Int32 → Prop} (h : t.Exponents P)
    (imp : ∀ n, P n → Q n) : t.Exponents Q :=
  fun i arg n hn => imp n (h i arg n hn)

omit [Scalar F] in
/-- `Exponents` as a check of every exponent there is. -/
theorem exponents_iff (t : Tape F) (P : Int32 → Prop) [DecidablePred P] :
    t.Exponents P ↔ (t.entries.toList.filterMap Entry.exponent?).all (fun n => P n) = true := by
  simp only [List.all_eq_true, List.mem_filterMap, decide_eq_true_iff]
  constructor
  · rintro h n ⟨e, he, hn⟩
    obtain ⟨i, hi⟩ := List.getElem?_of_mem he
    cases e with
    | powi arg n' =>
        cases hn
        exact h i arg n (by simpa using hi)
    | _ => cases hn
  · intro h i arg n hn
    exact h n ⟨_, Array.mem_toList_iff.mpr (Array.mem_of_getElem? hn), rfl⟩

-- a check of a list: there are too many exponents to go through all of them
instance (t : Tape F) (P : Int32 → Prop) [DecidablePred P] : Decidable (t.Exponents P) :=
  decidable_of_iff _ (t.exponents_iff P).symm

end Tape

/-! ## Values -/

namespace Entry

/-- The value of entry `i`, from the inputs `x` and the values `v` of the
entries. -/
def value (x v : Nat → R) (i : Nat) : Entry F → R
  | input => x i
  | const c => embed c
  | powi arg n => Elementary.powi (v arg) n.toInt
  | unary op arg _ => Elementary.unary op (v arg)
  | binary op left right => Elementary.binary op (v left) ((right.map v).getD 0)

theorem value_congr {x v v' : Nat → R} {i : Nat} {e : Entry F} (h : ∀ a ∈ e.args, v a = v' a) :
    e.value x v i = e.value x v' i := by
  cases e with
  | binary op left right =>
      cases right with
      | none => simp [value, h left (by simp [args])]
      | some r => simp [value, h left (by simp [args]), h r (by simp [args])]
  | _ => simp_all [value, args]

theorem map_value {φ : R → S} (hφ : IsHom F φ) (x v : Nat → R) (i : Nat) (e : Entry F) :
    φ (e.value x v i) = e.value (fun k => φ (x k)) (fun k => φ (v k)) i := by
  cases e with
  | input => rfl
  | const c => exact hφ.embed c
  | powi arg n => exact hφ.powi _ n.toInt
  | unary op arg second => exact hφ.unary op _
  | binary op left right =>
      cases right with
      | none => simp [value, hφ.binary, hφ.zero]
      | some r => exact hφ.binary op _ _

end Entry

namespace Tape

variable (t : Tape F)

/-- The value of entry `i` at the inputs `x`. -/
def valueAt (x : Nat → R) (i : Nat) : R :=
  match t.entries[i]? with
  | some e => e.value x (fun a => if _h : a < i then valueAt x a else 0) i
  | none => 0
termination_by i

theorem valueAt_of_none {x : Nat → R} {i : Nat} (h : t.entries[i]? = none) :
    t.valueAt x i = 0 := by
  rw [valueAt, h]

/-- In a well-formed tape the value of an entry comes from the values of
its operands. -/
theorem WellFormed.valueAt_eq {t : Tape F} (wf : t.WellFormed) {i : Nat} {e : Entry F}
    (h : t.entries[i]? = some e) (x : Nat → R) :
    t.valueAt x i = e.value x (t.valueAt x) i := by
  rw [valueAt, h]
  refine Entry.value_congr fun a ha => ?_
  exact dif_pos (wf.reads_lt h a (Entry.mem_reads_of_mem_args ha))

theorem map_valueAt {φ : R → S} (hφ : IsHom F φ) (x : Nat → R) (i : Nat) :
    φ (t.valueAt x i) = t.valueAt (fun k => φ (x k)) i := by
  induction i using Nat.strong_induction_on with
  | _ i ih =>
    cases h : t.entries[i]? with
    | none => rw [valueAt_of_none t h, valueAt_of_none t h, hφ.zero]
    | some e =>
        rw [valueAt, valueAt, h]
        refine (Entry.map_value hφ x _ i e).trans ?_
        refine Entry.value_congr fun a _ => ?_
        by_cases lt : a < i
        · rw [dif_pos lt, dif_pos lt, ih a lt]
        · rw [dif_neg lt, dif_neg lt, hφ.zero]

end Tape

/-! ## Tangents -/

namespace Entry

/-- The tangent of an operation, from the values `v` and the tangents `τ` of
the entries. -/
def tangent (v τ : Nat → R) : Entry F → R
  | input | const _ => 0
  | powi arg n => τ arg * slopePowi (v arg) n.toInt
  | unary op arg _ => τ arg * slopeUnary op (v arg)
  | binary op left right =>
      τ left * byLeft op (v left) ((right.map v).getD 0)
        + (right.map τ).getD 0 * byRight op (v left) ((right.map v).getD 0)

/-- The tangent of an operation over dual numbers. -/
theorem eps_value {x d : Nat → Dual R} {i : Nat} {e : Entry F} (h : e.isInput = false) :
    (e.value x d i).eps = e.tangent (fun k => (d k).re) (fun k => (d k).eps) := by
  cases e with
  | input => cases h
  | const c => rfl
  | powi arg n => rfl
  | unary op arg second => rfl
  | binary op left right => cases right <;> simp [value, tangent]

omit [Scalar F] [Embeds F R] in
theorem tangent_congr {v τ τ' : Nat → R} {e : Entry F} (h : ∀ a ∈ e.args, τ a = τ' a) :
    e.tangent v τ = e.tangent v τ' := by
  cases e with
  | binary op left right =>
      cases right with
      | none => simp [tangent, h left (by simp [args])]
      | some r => simp [tangent, h left (by simp [args]), h r (by simp [args])]
  | _ => simp_all [tangent, args]

omit [Scalar F] [Embeds F R] in
/-- The tangent of an operation is linear in the tangents of its
operands. -/
theorem tangent_sum {ι : Type} (s : Finset ι) (c : ι → R) (v : Nat → R) (τ : ι → Nat → R)
    (e : Entry F) :
    e.tangent v (fun a => ∑ k ∈ s, c k * τ k a) = ∑ k ∈ s, c k * e.tangent v (τ k) := by
  cases e with
  | input | const => simp [tangent]
  | powi arg n => simp [tangent, Finset.sum_mul, mul_assoc]
  | unary op arg second => simp [tangent, Finset.sum_mul, mul_assoc]
  | binary op left right =>
      cases right <;> simp [tangent, Finset.sum_mul, mul_assoc, mul_add, Finset.sum_add_distrib]

end Entry

/-- The inputs `x` as dual numbers, with input `j` as the variable of
differentiation. -/
def seeded (x : Nat → R) (j : Nat) : Nat → Dual R :=
  fun k => ⟨x k, if k = j then 1 else 0⟩

namespace Tape

variable (t : Tape F)

/-- The derivative of entry `i` by input `j` at `x`. -/
def partialAt (x : Nat → R) (j i : Nat) : R := (t.valueAt (seeded x j) i).eps

/-- The second derivative of entry `i` by the inputs `j` and `k` at `x`. -/
def secondAt (x : Nat → R) (j k i : Nat) : R := (t.partialAt (seeded x k) j i).eps

theorem re_valueAt (u : Nat → Dual R) (i : Nat) :
    (t.valueAt u i).re = t.valueAt (fun k => (u k).re) i :=
  t.map_valueAt Dual.isHom_re u i

theorem re_partialAt [PowerRule R] (u : Nat → Dual R) (j i : Nat) :
    (t.partialAt u j i).re = t.partialAt (fun k => (u k).re) j i := by
  have hom : IsHom F fun z : Dual (Dual R) => (Dual.swap z).re :=
    Dual.isHom_re.comp Dual.isHom_swap
  have h := congrArg Dual.eps (t.map_valueAt hom (seeded u j) i)
  refine h.trans ?_
  rw [partialAt]
  congr 2
  funext k
  simp only [seeded]
  split <;> rfl

variable {t} (wf : t.WellFormed)

include wf

theorem WellFormed.eps_valueAt_of_op {i : Nat} {e : Entry F} (h : t.entries[i]? = some e)
    (op : e.isInput = false) (u : Nat → Dual R) :
    (t.valueAt u i).eps =
      e.tangent (t.valueAt fun k => (u k).re) (fun a => (t.valueAt u a).eps) := by
  rw [wf.valueAt_eq h, Entry.eps_value op]
  simp only [re_valueAt]

theorem WellFormed.partialAt_of_op {i : Nat} {e : Entry F} (h : t.entries[i]? = some e)
    (op : e.isInput = false) (x : Nat → R) (j : Nat) :
    t.partialAt x j i = e.tangent (t.valueAt x) (t.partialAt x j) :=
  wf.eps_valueAt_of_op h op (seeded x j)

theorem WellFormed.valueAt_input {i : Nat} (h : i < t.inputCount) (x : Nat → R) :
    t.valueAt x i = x i := by
  obtain ⟨e, he, input⟩ := (wf.input_iff i).mpr h
  rw [wf.valueAt_eq he]
  cases e with
  | input => rfl
  | _ => cases input

theorem WellFormed.partialAt_input {i : Nat} (h : i < t.inputCount) (x : Nat → R) (j : Nat) :
    t.partialAt x j i = if i = j then 1 else 0 := by
  rw [partialAt, wf.valueAt_input h]
  rfl

/-- The chain rule. -/
theorem WellFormed.eps_valueAt (u : Nat → Dual R) (i : Nat) :
    (t.valueAt u i).eps =
      ∑ j ∈ Finset.range t.inputCount, (u j).eps * t.partialAt (fun k => (u k).re) j i := by
  induction i using Nat.strong_induction_on with
  | _ i ih =>
    cases h : t.entries[i]? with
    | none => simp [partialAt, valueAt_of_none t h]
    | some e =>
        by_cases input : e.isInput = true
        · have lt := (wf.input_iff i).mp ⟨e, h, input⟩
          have sum := Finset.sum_eq_single_of_mem
            (f := fun j => (u j).eps * t.partialAt (fun k => (u k).re) j i) i
            (Finset.mem_range.mpr lt) fun j _ ne => by
              rw [wf.partialAt_input lt, if_neg (Ne.symm ne), mul_zero]
          rw [sum, wf.valueAt_input lt, wf.partialAt_input lt, if_pos rfl, mul_one]
        · have op : e.isInput = false := by simpa using input
          rw [wf.eps_valueAt_of_op h op]
          simp only [wf.partialAt_of_op h op]
          rw [← Entry.tangent_sum]
          refine Entry.tangent_congr fun a ha => ?_
          exact ih a (wf.reads_lt h a (Entry.mem_reads_of_mem_args ha))

/-- Exchanging the order of differentiation, along any direction `u`. -/
theorem WellFormed.eps_partialAt_symm [PowerRule R] (u : Nat → Dual R) (j i : Nat) :
    (t.partialAt u j i).eps = ∑ k ∈ Finset.range t.inputCount,
      (u k).eps * t.secondAt (fun k => (u k).re) k j i := by
  have swapped : (t.partialAt u j i).eps =
      (t.valueAt (fun k => Dual.swap (seeded u j k)) i).eps.eps :=
    congrArg (fun z => z.eps.eps) (t.map_valueAt Dual.isHom_swap (seeded u j) i)
  have base : (fun k => (Dual.swap (seeded u j k)).re) = seeded (fun k => (u k).re) j := by
    funext k
    simp only [seeded, Dual.swap]
    split <;> rfl
  have dir (k : Nat) : (Dual.swap (seeded u j k)).eps = ⟨(u k).eps, 0⟩ := by
    simp only [seeded, Dual.swap]
    split <;> rfl
  rw [swapped, wf.eps_valueAt, base, ← Dual.epsHom_apply, map_sum]
  simp only [dir, Dual.epsHom_apply, Dual.eps_mul, zero_mul, add_zero]
  rfl

/-- Second derivatives are symmetric. -/
theorem WellFormed.secondAt_symm [PowerRule R] (x : Nat → R) {j k : Nat}
    (hj : j < t.inputCount) (i : Nat) :
    t.secondAt x k j i = t.secondAt x j k i := by
  have h : t.secondAt x k j i = _ := wf.eps_partialAt_symm (seeded x j) k i
  have sum := Finset.sum_eq_single_of_mem
    (f := fun l => (seeded x j l).eps * t.secondAt (fun l => (seeded x j l).re) l k i) j
    (Finset.mem_range.mpr hj) fun l _ ne => by
      simp [seeded, ne]
  rw [h, sum]
  simp [seeded]

/-- The tangents of partial derivatives are second derivatives. -/
theorem WellFormed.eps_partialAt [PowerRule R] (u : Nat → Dual R) (j i : Nat) :
    (t.partialAt u j i).eps = ∑ k ∈ Finset.range t.inputCount,
      (u k).eps * t.secondAt (fun k => (u k).re) j k i := by
  rw [wf.eps_partialAt_symm]
  refine Finset.sum_congr rfl fun k hk => ?_
  rw [wf.secondAt_symm _ (Finset.mem_range.mp hk)]

/-- The chain rule for second derivatives. -/
theorem WellFormed.eps_eps_valueAt [PowerRule R] (u : Nat → Dual (Dual R)) (i : Nat) :
    (t.valueAt u i).eps.eps =
      ∑ j ∈ Finset.range t.inputCount, ((u j).eps.re * (∑ k ∈ Finset.range t.inputCount,
        (u k).re.eps * t.secondAt (fun l => (u l).re.re) j k i)
        + (u j).eps.eps * t.partialAt (fun l => (u l).re.re) j i) := by
  rw [wf.eps_valueAt, ← Dual.epsHom_apply, map_sum]
  refine Finset.sum_congr rfl fun j _ => ?_
  rw [Dual.epsHom_apply, Dual.eps_mul, wf.eps_partialAt, re_partialAt]

end Tape

end LoopDiff
