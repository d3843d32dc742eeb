import LoopDiff.Proofs.Interpretation
import LoopDiff.Proofs.Tape.Semantics
import LoopDiff.Tape.Sweep

/-!
# LoopDiff.Proofs.Tape.Sweep

Sweeps over values that stand for ring elements.

A forward sweep gives every entry its value.  For a reverse sweep the
invariant is a pairing: the adjoints, paired with the tangents of the
entries along any direction, always give the tangent of the weighted
outputs.  An operation spends its adjoint on its operands without changing
the pairing, because its tangent is a combination of theirs.  At the end
only inputs and constants have adjoints left, and pairing with the
direction of one input leaves the adjoint of that input.

An adjoint that is known to be zero contributes nothing to the pairing, so
the invariant also covers the entries that a sweep skips.
-/

namespace LoopDiff

open Elementary (byLeft byRight slopeUnary slopePowi)

variable {m : Type → Type} {W F T R : Type} [Monad m] [MonadExceptOf Failure m]
  [Worlds m W] [Preorder W] [Scalar F] [Constants F T] [Arith m T] [Elementary R] [Embeds F R]
  (I : Interpretation m F T R) {w : W}

namespace Interpretation

/-! ## Exponents of a tape -/

variable {I} in
omit [MonadExceptOf Failure m] in
/-- Where no exponent is too low, no tape has one that is. -/
theorem Takes.exponents (takes : I.Takes 0) (t : Tape F) : t.Exponents I.exponent :=
  fun _ _ n _ => takes n Exponent.lowers_zero

/-! ## Arrays of values -/

omit [MonadExceptOf Failure m] in
/-- The values of an array stand for the elements of a family. -/
def meansAll (w : W) (xs : Array T) (x : Nat → R) : Prop :=
  ∀ (i : Nat) (v : T), xs[i]? = some v → I.means w v (x i)

variable {xs : Array T} {x : Nat → R}

omit [MonadExceptOf Failure m] in
theorem meansAll.later {w' : W} (h : I.meansAll w xs x) (le : w ≤ w') : I.meansAll w' xs x :=
  fun i v hv => I.later le (h i v hv)

omit [MonadExceptOf Failure m] in
theorem meansAll.push {v : T} {r : R} (h : I.meansAll w xs x) (hv : I.means w v r)
    (eq : x xs.size = r) : I.meansAll w (xs.push v) x := by
  intro i z hz
  rw [Array.getElem?_push] at hz
  split at hz
  case isTrue last =>
      cases hz
      rw [last, eq]
      exact hv
  case isFalse => exact h i z hz

omit [MonadExceptOf Failure m] in
theorem meansAll.set {v : T} {r : R} (h : I.meansAll w xs x) (a : Nat) (hv : I.means w v r) :
    I.meansAll w (xs.setIfInBounds a v) (Function.update x a r) := by
  intro i z hz
  rw [Array.getElem?_setIfInBounds] at hz
  by_cases eq : a = i
  · subst eq
    rw [if_pos rfl] at hz
    split at hz
    · cases hz
      rwa [Function.update_self]
    · cases hz
  · rw [if_neg eq] at hz
    rw [Function.update_of_ne (Ne.symm eq)]
    exact h i z hz

theorem meansAll.fetch {i : Nat} (h : I.meansAll w xs x) (lt : i < xs.size) :
    Yields (LoopDiff.fetch xs i : m T) w fun v w' => I.means w' v (x i) :=
  yields_present (Array.getElem?_eq_getElem lt) (h i _ (Array.getElem?_eq_getElem lt))

/-- Numbers stand for what they are read as. -/
theorem meansAll_plain {F R : Type} [Scalar F] [Elementary R] [Reading F R]
    (xs : List F) : (plain (Except Failure) F R).meansAll () xs.toArray
      fun j => embed (xs.getD j Scalar.zero) := by
  intro j v hv
  rw [List.getElem?_toArray] at hv
  show embed v = _
  simp [List.getD_eq_getElem?_getD, hv]

end Interpretation

/-! ## Forward -/

namespace Entry

variable {inputs values : Array T} {x v : Nat → R}

theorem yields_fetchSecond (hv : I.meansAll w values v) {second : Option Nat}
    (lt : ∀ a ∈ second, a < values.size) :
    Yields (fetchSecond values second : m T) w fun z w' =>
      I.means w' z ((second.map v).getD 0) := by
  cases second with
  | none => exact yields_pure (I.zero w)
  | some a => exact hv.fetch I (lt a rfl)

/-- Running an entry after its operands gives its value. -/
theorem yields_forward {e : Entry F} (hx : I.meansAll w inputs x) (hv : I.meansAll w values v)
    (input : e.isInput → values.size < inputs.size) (reads : ∀ a ∈ e.reads, a < values.size)
    (exponent : ∀ arg n, e = .powi arg n → I.exponent n) :
    Yields (e.forward inputs values : m T) w fun z w' =>
      I.means w' z (e.value x v values.size) := by
  cases e with
  | input => exact hx.fetch I (input rfl)
  | const c => exact yields_pure (I.ofBase w c)
  | powi arg n =>
      refine (hv.fetch I (reads arg (by simp [Entry.reads]))).bind fun a w₁ le₁ ha => ?_
      exact I.powi (exponent arg n rfl) ha
  | unary op arg second =>
      refine (hv.fetch I (reads arg (by simp [Entry.reads]))).bind fun a w₁ le₁ ha => ?_
      refine (yields_fetchSecond I (hv.later I le₁) fun b hb =>
        reads b (by simp [Entry.reads, Option.mem_toList.mpr hb])).bind fun _ w₂ le₂ _ => ?_
      exact I.unary op (I.later le₂ ha)
  | binary op left right =>
      refine (hv.fetch I (reads left (by simp [Entry.reads]))).bind fun a w₁ le₁ ha => ?_
      refine (yields_fetchSecond I (hv.later I le₁) fun b hb =>
        reads b (by simp [Entry.reads, Option.mem_toList.mpr hb])).bind fun b w₂ le₂ hb => ?_
      exact I.binary op (I.later le₂ ha) hb

end Entry

namespace Tape

variable {t : Tape F} (wf : t.WellFormed)

omit [Scalar F] in
/-- The entry at a place in a traversal of the entries. -/
theorem getElem?_of_split {done rest : List (Entry F)} {e : Entry F}
    (h : t.entries.toList = done ++ e :: rest) : t.entries[done.length]? = some e := by
  rw [← Array.getElem?_toList, h]
  simp

omit [Scalar F] in
/-- The entry at a place in a traversal from the last entry to the first. -/
theorem getElem?_of_reverse_split {done rest : List (Entry F × Nat)} {e : Entry F} {i : Nat}
    (h : t.entries.toList.zipIdx.reverse = done ++ (e, i) :: rest) :
    t.entries[i]? = some e ∧ i + 1 = t.size - done.length := by
  have at_ : (t.entries.toList.zipIdx.reverse)[done.length]? = some (e, i) := by simp [h]
  have lt : done.length < t.size := by
    have := congrArg List.length h
    simp only [List.length_reverse, List.length_zipIdx, Array.length_toList, List.length_append,
      List.length_cons] at this
    simp only [Tape.size]
    omega
  rw [List.getElem?_reverse (by simpa [Tape.size] using lt), List.getElem?_zipIdx] at at_
  obtain ⟨e', he, eq⟩ := Option.map_eq_some_iff.mp at_
  cases eq
  refine ⟨by simpa using he, ?_⟩
  simp only [List.length_zipIdx, Array.length_toList, Tape.size] at lt ⊢
  omega

include wf

omit [Scalar F] in
theorem WellFormed.inputCount_le : t.inputCount ≤ t.size := by
  by_contra lt
  obtain ⟨e, he, -⟩ := (wf.input_iff t.size).mpr (Nat.lt_of_not_le lt)
  obtain ⟨h, -⟩ := Array.getElem?_eq_some_iff.mp he
  exact Nat.lt_irrefl _ h

/-- A forward sweep gives the value of every entry. -/
theorem WellFormed.yields_forwardSweep {xs : List T} {x : Nat → R}
    (exponents : t.Exponents I.exponent) (len : xs.length = t.inputCount)
    (hx : I.meansAll w xs.toArray x) :
    Yields (t.forwardSweep xs : m (Array T)) w fun values w' =>
      values.size = t.size ∧ I.meansAll w' values (t.valueAt x) := by
  refine yields_checkSize_bind len.symm ?_
  refine (yields_foldlM (fun done values w' => values.size = done.length ∧
    I.meansAll w' values (t.valueAt x)) ⟨rfl, fun i v hv => by simp at hv⟩ ?_).mono ?_
  · intro done e rest values w₁ split le₁ ⟨size, hv⟩
    have he := getElem?_of_split split
    have forward : Yields (e.forward xs.toArray values : m T) w₁ _ :=
      Entry.yields_forward I (hx.later I le₁) hv (fun input => by
        have := (wf.input_iff _).mp ⟨e, he, input⟩
        simp [size, len, this]) (fun a ha => size ▸ wf.reads_lt he a ha)
        fun arg n eq => exponents _ arg n (eq ▸ he)
    refine forward.bind fun z w₂ le₂ hz => yields_pure ⟨by simp [size], ?_⟩
    exact (hv.later I le₂).push I hz (by rw [size, wf.valueAt_eq he])
  · rintro values w' - ⟨size, hv⟩
    exact ⟨size.trans (by simp [Tape.size]), hv⟩

/-- The outputs of a tape. -/
theorem WellFormed.yields_outputsOf {values : Array T} {v : Nat → R} (size : values.size = t.size)
    (hv : I.meansAll w values v) :
    Yields (t.outputsOf values : m (List T)) w fun ys w' =>
      List.Forall₂ (fun o y => I.means w' y (v o)) t.outputs ys :=
  yields_mapM (fun _ _ _ _ le h => I.later le h) fun o ho _ le =>
    (hv.later I le).fetch I (size ▸ wf.output_lt o ho)

/-- Running a tape gives its outputs. -/
theorem WellFormed.yields_eval {xs : List T} {x : Nat → R} (exponents : t.Exponents I.exponent)
    (len : xs.length = t.inputCount) (hx : I.meansAll w xs.toArray x) :
    Yields (t.eval xs : m (List T)) w fun ys w' =>
      List.Forall₂ (fun o y => I.means w' y (t.valueAt x o)) t.outputs ys := by
  refine (wf.yields_forwardSweep I exponents len hx).bind fun values w₁ le₁ ⟨size, hv⟩ => ?_
  exact wf.yields_outputsOf I size hv

end Tape

/-! ## Pairing -/

/-- The adjoints `β` of the first `n` entries, paired with tangents. -/
def pairing (n : Nat) (β τ : Nat → R) : R := ∑ i ∈ Finset.range n, β i * τ i

omit [Scalar F] [Embeds F R] in
theorem pairing_update {n a : Nat} (lt : a < n) (β τ : Nat → R) (r : R) :
    pairing n (Function.update β a r) τ = pairing n β τ + (r - β a) * τ a := by
  have mem := Finset.mem_range.mpr lt
  rw [pairing, pairing, ← Finset.add_sum_erase _ _ mem, ← Finset.add_sum_erase _ _ mem,
    Function.update_self]
  have rest : ∑ i ∈ (Finset.range n).erase a, Function.update β a r i * τ i =
      ∑ i ∈ (Finset.range n).erase a, β i * τ i :=
    Finset.sum_congr rfl fun i hi => by
      rw [Function.update_of_ne (Finset.ne_of_mem_erase hi)]
  rw [rest]
  ring

/-- What a step does with the adjoints `β`: those from entry `i` on stay,
and the pairing gains `s` times the tangent of the entry. -/
def Entry.Spends (e : Entry F) (n i : Nat) (v : Nat → R) (s : R) (β β' : Nat → R) : Prop :=
  (∀ j, i ≤ j → β' j = β j) ∧
    ∀ τ, pairing n β' τ = pairing n β τ + s * e.tangent v τ

namespace Entry

variable {adjoints values : Array T} {β v : Nat → R}

theorem yields_propagate {a : Nat} {factor adjoint : T} {d s : R} (lt : a < adjoints.size)
    (hβ : I.meansAll w adjoints β) (hd : I.means w factor d) (hs : I.means w adjoint s) :
    Yields (propagate adjoints a factor adjoint : m (Array T)) w fun adjoints' w' =>
      adjoints'.size = adjoints.size ∧
        I.meansAll w' adjoints' (Function.update β a (β a + d * s)) := by
  refine (hβ.fetch I lt).bind fun old w₁ le₁ hold => ?_
  refine (I.mul (I.later le₁ hd) (I.later le₁ hs)).bind fun p w₂ le₂ hp => ?_
  refine (I.add (I.later le₂ hold) hp).bind fun new w₃ le₃ hnew => ?_
  exact yields_pure ⟨by simp, ((hβ.later I (le₁.trans (le₂.trans le₃))).set I a hnew)⟩

/-- The adjoint of an operation is spent on its operands. -/
theorem yields_backward {e : Entry F} {i : Nat} {adjoint : T} {x : Nat → R} {s : R}
    (hβ : I.meansAll w adjoints β) (hv : I.meansAll w values v) (hs : I.means w adjoint s)
    (size : values.size = adjoints.size) (lt : i < adjoints.size) (value : v i = e.value x v i)
    (reads : ∀ a ∈ e.reads, a < i) (complete : e.complete)
    (exponent : ∀ arg n, e = .powi arg n → I.lowers n) :
    Yields (e.backward values adjoints i adjoint : m (Array T)) w fun adjoints' w' =>
      adjoints'.size = adjoints.size ∧
        ∃ β', I.meansAll w' adjoints' β' ∧ e.Spends adjoints.size i v s β β' := by
  have inside (a : Nat) (ha : a ∈ e.reads) : a < values.size := by
    have := reads a ha
    omega
  have fetched (a : Nat) (ha : a ∈ e.reads) (w' : W) (le : w ≤ w') :
      Yields (fetch values a : m T) w' fun z w'' => I.means w'' z (v a) :=
    (hv.later I le).fetch I (inside a ha)
  have keeps (a : Nat) (ha : a ∈ e.reads) (f : Nat → R) (r : R) (j : Nat) (le : i ≤ j) :
      Function.update f a r j = f j :=
    Function.update_of_ne (by have := reads a ha; omega) ..
  cases e with
  | input | const c => exact yields_pure ⟨rfl, β, hβ, fun _ _ => rfl, fun τ => by simp [tangent]⟩
  | powi arg n =>
      have mem : arg ∈ (Entry.powi arg n : Entry F).reads := List.mem_singleton.mpr rfl
      refine (fetched arg mem w le_rfl).bind fun a w₁ le₁ ha => ?_
      refine (I.derivative_powi (exponent arg n rfl) ha).bind fun d w₂ le₂ hd => ?_
      have le := le₁.trans le₂
      refine (yields_propagate I (size ▸ inside arg mem) (hβ.later I le) hd
        (I.later le hs)).mono fun adjoints' w₃ le₃ spent => ⟨spent.1, _, spent.2, ?_⟩
      refine ⟨fun j le => keeps arg mem β _ j le, fun τ => ?_⟩
      rw [pairing_update (size ▸ inside arg mem)]
      simp only [tangent]
      ring
  | unary op arg second =>
      have mem : arg ∈ (Entry.unary op arg second : Entry F).reads := List.mem_cons_self ..
      refine (fetched arg mem w le_rfl).bind fun a w₁ le₁ ha => ?_
      refine (yields_fetchSecond I (hv.later I le₁) fun b hb =>
        inside b (List.mem_cons_of_mem _ (Option.mem_toList.mpr hb))).bind fun _ w₂ le₂ _ => ?_
      have le := le₁.trans le₂
      refine ((hv.later I le).fetch I (size ▸ lt)).bind fun r w₃ le₃ hr => ?_
      have le := le.trans le₃
      have value : v i = Elementary.unary op (v arg) := value
      refine (I.derivative_unary op (I.later (le₂.trans le₃) ha) (value ▸ hr)).bind
        fun d w₄ le₄ hd => ?_
      have le := le.trans le₄
      refine (yields_propagate I (size ▸ inside arg mem) (hβ.later I le) hd
        (I.later le hs)).mono fun adjoints' w₅ le₅ spent => ⟨spent.1, _, spent.2, ?_⟩
      refine ⟨fun j le => keeps arg mem β _ j le, fun τ => ?_⟩
      rw [pairing_update (size ▸ inside arg mem)]
      simp only [tangent]
      ring
  | binary op left right =>
      obtain ⟨right, rfl⟩ := Option.isSome_iff_exists.mp complete
      have memL : left ∈ (Entry.binary op left (some right) : Entry F).reads :=
        List.mem_cons_self ..
      have memR : right ∈ (Entry.binary op left (some right) : Entry F).reads := by
        simp [Entry.reads]
      refine (fetched left memL w le_rfl).bind fun a w₁ le₁ ha => ?_
      refine (fetched right memR w₁ le₁).bind fun b w₂ le₂ hb => ?_
      have le := le₁.trans le₂
      refine ((hv.later I le).fetch I (size ▸ lt)).bind fun r w₃ le₃ hr => ?_
      have le := le.trans le₃
      have value : v i = Elementary.binary op (v left) (v right) := value
      refine (I.derivative_binary op (I.later (le₂.trans le₃) ha) (I.later le₃ hb)
        (value ▸ hr)).bind fun d w₄ le₄ hd => ?_
      have le := le.trans le₄
      refine (yields_propagate I (size ▸ inside left memL) (hβ.later I le) hd.1
        (I.later le hs)).bind fun adjoints₁ w₅ le₅ spent => ?_
      obtain ⟨size₁, hβ₁⟩ := spent
      have le := le.trans le₅
      refine (yields_propagate I (size₁ ▸ size ▸ inside right memR) hβ₁ (I.later le₅ hd.2)
        (I.later le hs)).mono fun adjoints' w₆ le₆ spent => ?_
      refine ⟨spent.1.trans size₁, _, spent.2, fun j le => ?_, fun τ => ?_⟩
      · rw [keeps right memR _ _ j le, keeps left memL _ _ j le]
      · rw [pairing_update (size ▸ inside right memR), pairing_update (size ▸ inside left memL)]
        simp only [tangent, Option.map_some, Option.getD_some]
        ring

end Entry

/-! ## Reverse -/

namespace Tape

/-- The entry that computes an output. -/
def outputAt (t : Tape F) (k : Nat) : Nat := t.outputs.getD k 0

omit [Scalar F] in
theorem outputAt_eq {t : Tape F} {k o : Nat} (h : t.outputs[k]? = some o) : t.outputAt k = o := by
  rw [outputAt, List.getD, h, Option.getD_some]

omit [Scalar F] in
theorem outputAt_mem {t : Tape F} {k : Nat} (lt : k < t.outputCount) : t.outputAt k ∈ t.outputs := by
  rw [outputAt_eq (List.getElem?_eq_getElem lt)]
  exact List.getElem_mem lt

omit [Scalar F] in
theorem WellFormed.outputAt_lt {t : Tape F} (wf : t.WellFormed) {k : Nat}
    (h : k < t.outputCount) : t.outputAt k < t.size :=
  wf.output_lt _ (outputAt_mem h)

/-- The outputs `o` weighted with `ω`, along the tangents `τ`. -/
def weighted (n : Nat) (o : Nat → Nat) (ω τ : Nat → R) : R :=
  ∑ k ∈ Finset.range n, ω k * τ (o k)

/-- Tangents of the entries along some direction, at the values `v`. -/
def IsTangent (t : Tape F) (v τ : Nat → R) : Prop :=
  ∀ (i : Nat) (e : Entry F), t.entries[i]? = some e → e.isInput = false → τ i = e.tangent v τ

/-- The invariant of a reverse sweep that has come down to entry `i`. -/
structure Swept (t : Tape F) (v ω : Nat → R) (i : Nat) (β : Nat → R) : Prop where
  spent {j : Nat} {e : Entry F} : i ≤ j → t.entries[j]? = some e → e.isOperation → β j = 0
  paired {τ : Nat → R} : t.IsTangent v τ →
    pairing t.size β τ = weighted t.outputCount t.outputAt ω τ

variable {t : Tape F} {v ω : Nat → R} {i : Nat} {β : Nat → R}

omit [Scalar F] [Embeds F R] in
/-- An operation that has spent its adjoint. -/
theorem Swept.spend {e : Entry F} (h : t.Swept v ω (i + 1) β) (he : t.entries[i]? = some e)
    (input : e.isInput = false) {β' : Nat → R}
    (spends : e.Spends t.size i v (β i) (Function.update β i 0) β') : t.Swept v ω i β' := by
  have lt : i < t.size := (Array.getElem?_eq_some_iff.mp he).1
  refine ⟨fun {j e'} le hj op => ?_, fun {τ} hτ => ?_⟩
  · rw [spends.1 j le]
    by_cases eq : j = i
    · rw [eq, Function.update_self]
    · rw [Function.update_of_ne eq]
      exact h.spent (by omega) hj op
  · rw [spends.2 τ, pairing_update lt, ← hτ i e he input, h.paired hτ]
    ring

omit [Scalar F] [Embeds F R] in
/-- An entry without adjoint, or without operands, is skipped. -/
theorem Swept.skip {e : Entry F} (h : t.Swept v ω (i + 1) β) (he : t.entries[i]? = some e)
    (zero : e.isOperation → β i = 0) : t.Swept v ω i β := by
  refine ⟨fun {j e'} le hj op => ?_, h.paired⟩
  by_cases eq : j = i
  · subst eq
    rw [he] at hj
    cases hj
    exact zero op
  · exact h.spent (by omega) hj op

variable (wf : t.WellFormed)

include wf

/-- When a sweep has come down to the first entry, the adjoint of an input
is the derivative of the weighted outputs. -/
theorem WellFormed.adjoint_of_swept {x : Nat → R} (h : t.Swept (t.valueAt x) ω 0 β) {a : Nat}
    (ha : a < t.inputCount) :
    β a = weighted t.outputCount t.outputAt ω (t.partialAt x a) := by
  rw [← h.paired fun i e he input => wf.partialAt_of_op he input x a]
  have mem := Finset.mem_range.mpr (Nat.lt_of_lt_of_le ha wf.inputCount_le)
  rw [pairing, Finset.sum_eq_single_of_mem a mem fun j hj ne => ?_, wf.partialAt_input ha,
    if_pos rfl, mul_one]
  obtain ⟨e, he⟩ : ∃ e, t.entries[j]? = some e :=
    ⟨_, Array.getElem?_eq_getElem (Finset.mem_range.mp hj)⟩
  cases hop : e.isOperation with
  | true => rw [h.spent (Nat.zero_le j) he hop, zero_mul]
  | false =>
      cases e with
      | input =>
          rw [wf.partialAt_input ((wf.input_iff j).mp ⟨_, he, rfl⟩), if_neg ne, mul_zero]
      | const c => rw [wf.partialAt_of_op he rfl, Entry.tangent, mul_zero]
      | _ => cases hop

variable {adjoints values : Array T}

theorem WellFormed.yields_reverseStep {x : Nat → R} {e : Entry F}
    (exponents : t.Exponents I.lowers) (size : values.size = t.size)
    (size' : adjoints.size = t.size) (hv : I.meansAll w values (t.valueAt x))
    (hβ : I.meansAll w adjoints β) (he : t.entries[i]? = some e)
    (h : t.Swept (t.valueAt x) ω (i + 1) β) :
    Yields (e.reverseStep values adjoints i : m (Array T)) w fun adjoints' w' =>
      adjoints'.size = t.size ∧
        ∃ β', I.meansAll w' adjoints' β' ∧ t.Swept (t.valueAt x) ω i β' := by
  have lt : i < t.size := (Array.getElem?_eq_some_iff.mp he).1
  rw [Entry.reverseStep]
  cases hop : e.isOperation with
  | false =>
      exact yields_pure ⟨size', β, hβ, h.skip he fun op => by rw [hop] at op; cases op⟩
  | true =>
      refine (hβ.fetch I (size' ▸ lt)).bind fun adjoint w₁ le₁ hadjoint => ?_
      by_cases zero : Constants.isZero adjoint = true
      · rw [if_pos zero]
        exact yields_pure ⟨size', β, hβ.later I le₁, h.skip he fun _ => I.isZero hadjoint zero⟩
      · rw [if_neg zero]
        have hβ₀ := (hβ.later I le₁).set I i (I.zero w₁)
        have input : e.isInput = false := by cases e <;> first | rfl | cases hop
        refine (Entry.yields_backward I hβ₀ (hv.later I le₁) hadjoint
          (by simp [size, size']) (by simpa [size'] using lt) (wf.valueAt_eq he x)
          (wf.reads_lt he) (wf.complete he) fun arg n eq => exponents i arg n (eq ▸ he)).mono ?_
        rintro adjoints' w₂ le₂ ⟨size'', β', hβ', spends⟩
        rw [Array.size_setIfInBounds, size'] at size'' spends
        exact ⟨size'', β', hβ', h.spend he input spends⟩

/-- The adjoints that a reverse sweep starts from. -/
theorem WellFormed.yields_seedAdjoints {seeds : List T} (v : Nat → R)
    (len : seeds.length = t.outputCount) (hω : I.meansAll w seeds.toArray ω) :
    Yields (t.seedAdjoints seeds : m (Array T)) w fun adjoints w' =>
      adjoints.size = t.size ∧ ∃ β, I.meansAll w' adjoints β ∧ t.Swept v ω t.size β := by
  refine (yields_foldlM (fun done adjoints w' => adjoints.size = t.size ∧ ∃ β : Nat → R,
    I.meansAll w' adjoints β ∧ ∀ τ, pairing t.size β τ = weighted done.length t.outputAt ω τ)
    ⟨by simp [Tape.size], fun _ => 0, fun i z hz => ?_, fun τ => by simp [pairing, weighted]⟩
    ?_).mono ?_
  · rw [Array.getElem?_replicate] at hz
    split at hz
    · cases hz
      exact I.zero w
    · cases hz
  · rintro done ⟨o, seed⟩ rest adjoints w₁ split le₁ ⟨size, β, hβ, paired⟩
    have at_ : (t.outputs.zip seeds)[done.length]? = some (o, seed) := by simp [split]
    obtain ⟨ho, hseed⟩ := List.getElem?_zip_eq_some.mp at_
    have lt : o < t.size := wf.output_lt o (List.mem_of_getElem? ho)
    have output := outputAt_eq ho
    refine (hβ.fetch I (size ▸ lt)).bind fun old w₂ le₂ hold => ?_
    have hseed' := hω done.length seed (by simpa using hseed)
    refine (I.add hold (I.later (le₁.trans le₂) hseed')).bind fun new w₃ le₃ hnew => ?_
    refine yields_pure ⟨by simpa using size, _, (hβ.later I (le₂.trans le₃)).set I o hnew,
      fun τ => ?_⟩
    rw [pairing_update lt, paired, List.length_append, weighted, weighted, List.length_singleton,
      Finset.sum_range_succ, output]
    ring
  · rintro adjoints w' - ⟨size, β, hβ, paired⟩
    refine ⟨size, β, hβ, fun {j e} le he => ?_, fun {τ} _ => (paired τ).trans ?_⟩
    · obtain ⟨lt, -⟩ := Array.getElem?_eq_some_iff.mp he
      exact absurd lt (Nat.not_lt.mpr le)
    · rw [List.length_zip, len, Tape.outputCount, Nat.min_self]

/-- After a reverse sweep the adjoints of the inputs are the derivatives of
the weighted outputs. -/
theorem WellFormed.yields_reverseSweep {seeds : List T} {x : Nat → R}
    (exponents : t.Exponents I.lowers) (size : values.size = t.size)
    (hv : I.meansAll w values (t.valueAt x)) (len : seeds.length = t.outputCount)
    (hω : I.meansAll w seeds.toArray ω) :
    Yields (t.reverseSweep values seeds : m (Array T)) w fun adjoints w' =>
      adjoints.size = t.size ∧ ∀ a < t.inputCount, ∀ v, adjoints[a]? = some v →
        I.means w' v (weighted t.outputCount t.outputAt ω (t.partialAt x a)) := by
  refine yields_checkSize_bind len.symm (yields_checkSize_bind size.symm ?_)
  refine (wf.yields_seedAdjoints I (t.valueAt x) len hω).bind
    fun adjoints w₁ le₁ ⟨size', β, hβ, swept⟩ => ?_
  refine (yields_foldlM (fun done adjoints w' => adjoints.size = t.size ∧ ∃ β : Nat → R,
    I.meansAll w' adjoints β ∧ t.Swept (t.valueAt x) ω (t.size - done.length) β)
    ⟨size', β, hβ, swept⟩ ?_).mono ?_
  · rintro done ⟨e, i⟩ rest adjoints w₂ split le₂ ⟨size', β, hβ, swept⟩
    obtain ⟨he, next⟩ := getElem?_of_reverse_split split
    rw [← next] at swept
    refine (wf.yields_reverseStep I exponents size size' (hv.later I (le₁.trans le₂)) hβ he
      swept).mono ?_
    rintro adjoints' w₃ - ⟨size'', β', hβ', swept'⟩
    refine ⟨size'', β', hβ', ?_⟩
    have : t.size - (done ++ [(e, i)]).length = i := by
      rw [List.length_append, List.length_singleton]
      omega
    rwa [this]
  · rintro adjoints w' - ⟨size', β, hβ, swept⟩
    refine ⟨size', fun a ha z hz => ?_⟩
    rw [List.length_reverse, List.length_zipIdx, Array.length_toList, Tape.size,
      Nat.sub_self] at swept
    exact wf.adjoint_of_swept swept ha ▸ hβ a z hz

/-- The derivatives of the weighted outputs by the inputs. -/
theorem WellFormed.yields_gradient {xs weights : List T} {x : Nat → R}
    (exponents : t.Exponents fun n => I.exponent n ∧ I.lowers n)
    (len : xs.length = t.inputCount) (hx : I.meansAll w xs.toArray x)
    (len' : weights.length = t.outputCount) (hω : I.meansAll w weights.toArray ω) :
    Yields (t.gradient xs weights : m (List T)) w fun ds w' => ds.length = t.inputCount ∧
      I.meansAll w' ds.toArray fun a =>
        weighted t.outputCount t.outputAt ω (t.partialAt x a) := by
  refine (wf.yields_forwardSweep I (fun i arg n h => (exponents i arg n h).1) len hx).bind
    fun values w₁ le₁ ⟨size, hv⟩ => ?_
  refine (wf.yields_reverseSweep I (fun i arg n h => (exponents i arg n h).2) size hv len'
    (hω.later I le₁)).bind fun adjoints w₂ le₂ ⟨size', hadj⟩ => ?_
  refine yields_pure ⟨?_, fun a z hz => ?_⟩
  · have := wf.inputCount_le
    simp [size', Nat.min_eq_left this]
  · rw [List.getElem?_toArray, List.getElem?_take] at hz
    split at hz
    case isTrue lt => exact hadj a lt z (by simpa using hz)
    case isFalse => cases hz

end Tape

end LoopDiff
