import LoopDiff.Proofs.Assembly.Temporaries
import LoopDiff.Proofs.Loop.Sketch

/-!
# LoopDiff.Proofs.Assembly.Sketch

What an assembly starts from, whether or not it can be finished.

The values an assembly works with are numbers and nodes of the lowest tier
(`Assembly.Sketched`), and so is everything that is computed from them in a
loop body.  A derivative of a temporary is found only at an independent that
the temporary depends on (`Assembly.Chains`).
-/

namespace LoopDiff

open Arena Sketch
open Std (TreeMap TreeSet)

variable {F : Type} {a a' : Sketch F}

theorem Interpretation.meansAll_sketched [Scalar F] {vs : Array (Value F)} (low : ∀ v ∈ vs, a.Low 0 v) :
    (sketched F).meansAll a vs fun _ => ⟨⟩ :=
  fun _ _ hv => low _ (Array.mem_of_getElem? hv)

/-- What is found in a map of values, or put in place of what is missing. -/
theorem Sketch.low_getD [Scalar F] {κ : Type} [Ord κ] [Std.TransOrd κ] {E : TreeMap κ (Value F)}
    (low : ∀ (e : κ) (v : Value F), E[e]? = some v → a.Low 0 v) (e : κ) :
    a.Low 0 (E.getD e (.const Scalar.zero)) := by
  rw [TreeMap.getD_eq_getD_getElem?]
  cases hv : E[e]? with
  | some v => exact low e v hv
  | none => exact low_const

namespace Assembly

/-! ## Inputs -/

/-- An assembly of a model over numbers and nodes of the lowest tier. -/
structure Sketched (asm : Assembly F) (m : Model F) (a : Sketch F) : Prop where
  model : asm.model = m
  count : asm.independents.size = m.domain
  independent {v : Value F} : v ∈ asm.independents → a.Low 0 v
  weight {v : Value F} : v ∈ asm.weights → a.Low 0 v

variable {asm : Assembly F} {m : Model F} {l : Loop F} {s : LoopScope}

theorem Sketched.keep {P : Nat → Kind → Prop} (h : asm.Sketched m a)
    (keeps : a.arena.Keeps P a'.arena) : asm.Sketched m a' :=
  ⟨h.model, h.count, fun hv => (h.independent hv).keep keeps, fun hv => (h.weight hv).keep keeps⟩

theorem Sketched.later (h : asm.Sketched m a) (le : a ≤ a') : asm.Sketched m a' :=
  h.keep le.keeps

theorem yields_beginSketched [Scalar F] (m : Model F) (weighted : Bool) :
    Yields (begin m weighted) a fun asm a' => asm.Sketched m a' := by
  refine Yields.bind (yields_newIndependents independentsArray m.domain) fun xs a₁ _ hx => ?_
  have finish {a' : Sketch F} {ws : List (Value F)} (le : a₁ ≤ a') (hw : ∀ v ∈ ws, a'.Low 0 v) :
      Sketched ⟨m, xs.toArray, ws.toArray⟩ m a' :=
    ⟨rfl, by simpa using hx.1, fun hv => (hx.2 _ (by simpa using hv)).later le,
      fun hv => hw _ (by simpa using hv)⟩
  split
  case isTrue =>
      refine Yields.bind (yields_newIndependents weightsArray m.range) fun ws a₂ le hw => ?_
      exact yields_pure (finish le hw.2)
  case isFalse => exact yields_pure (finish le_rfl (by simp))

section

variable (h : asm.Sketched m a) (accepted : m.Accepted)

include h

theorem Sketched.means [Scalar F] : (Interpretation.sketched F).meansAll a
    asm.independents.toList.toArray fun _ => ⟨⟩ :=
  Interpretation.meansAll_sketched fun _ hv => h.independent (by simpa using hv)

include accepted

theorem Sketched.length {o : Outer F} (ho : m.outer? = some o) :
    asm.independents.toList.length = o.tape.inputCount := by
  rw [Array.length_toList, h.count, accepted.valid.outerInputs ho]

variable [Scalar F]

/-! ## Temporaries -/

theorem Sketched.yields_outerValues :
    Yields asm.outerValues a fun zs a' => ∀ v ∈ zs, a'.Low 0 v := by
  rw [outerValues, h.model]
  cases ho : m.outer? with
  | none => exact yields_pure (by simp)
  | some o =>
      refine ((accepted.outerTape ho).yields_eval (Interpretation.sketched F)
        (Interpretation.takes_sketched.exponents _) (h.length accepted ho) h.means).mono
          fun zs a' _ hz => ?_
      exact forall_right_of_forall₂ hz

theorem Sketched.yields_temporaries :
    Yields asm.temporaries a fun zs a' => ∀ v ∈ zs, a'.Low 0 v :=
  Yields.bind (h.yields_outerValues accepted) fun _ _ _ hz =>
    yields_pure fun v hv => hz v (List.mem_of_mem_drop hv)

/-- Derivatives of temporaries by independents that they depend on. -/
def Chains (rows : List (TreeMap Nat (Value F))) (m : Model F) (a : Sketch F) : Prop :=
  ∀ (k j : Nat) (v : Value F), (rows.getD k ∅)[j]? = some v → a.Low 0 v ∧ m.TemporaryDependsOn k j

omit h accepted [Scalar F] in
theorem Chains.later {rows : List (TreeMap Nat (Value F))} (h : Chains rows m a) (le : a ≤ a') :
    Chains rows m a' :=
  fun k j v hv => ⟨(h k j v hv).1.later le, (h k j v hv).2⟩

theorem Sketched.yields_temporaryJacobian :
    Yields asm.temporaryJacobian a fun rows a' => Chains rows m a' := by
  rw [temporaryJacobian, h.model]
  cases ho : m.outer? with
  | none => exact yields_pure fun k j v hv => by simp at hv
  | some o =>
      have wf := accepted.outerTape ho
      obtain ⟨sparsity, hs, depends⟩ := exists_ok_of_yields wf.yields_jacobianSparsity
      refine Sketch.ends_lift_bind fun _ hs' => ?_
      cases hs.symm.trans hs'
      refine Yields.bind (wf.yields_jacobianEntries (Interpretation.sketched F)
        (Interpretation.takes_dual_sketched.exponents _) (h.length accepted ho) h.means ?_ ?_)
          fun E a₁ _ hE => ?_
      · exact (fits_temporaryRows wf depends).1
      · exact (fits_temporaryRows wf depends).2
      · refine yields_pure fun k j v hv => ?_
        rcases of_getElem?_fillRows (getD_toList .. ▸ hv) with hv | ⟨i, mem, rfl⟩
        · rw [getElem?_emptyRows] at hv
          cases hv
        · have hv := TreeMap.mem_toList_iff_getElem?_eq_some.mp mem
          obtain ⟨le, -, reaches⟩ := (depends_temporaryRow depends).mp ((hE.1 (i, j)).mp
            (TreeMap.mem_iff_isSome_getElem?.mpr (by rw [hv]; rfl)))
          exact ⟨hE.2 _ v hv, o, ho, (temporaryOutput_sub le).symm ▸ reaches⟩

theorem Sketched.yields_neededJacobian (needed : Bool) :
    Yields (asm.neededJacobian needed) a fun rows a' => Chains rows m a' := by
  cases needed with
  | true => exact h.yields_temporaryJacobian accepted
  | false => exact yields_pure fun k j v hv => by simp at hv

theorem Sketched.yields_temporaryHessian {o : Outer F} (ho : m.outer? = some o) {k : Nat}
    (lt : k < o.temporaryCount) (requested : List (Nat × Nat)) :
    Yields (asm.temporaryHessian k requested) a fun E a' =>
      ∀ (e : Nat × Nat) (v : Value F), E[e]? = some v → a'.Low 0 v := by
  have wf := accepted.outerTape ho
  obtain ⟨sparsity, hs, meets⟩ :=
    exists_ok_of_yields (accepted.yields_temporaryHessianSparsity ho lt)
  rw [temporaryHessian, h.model, ho]
  refine Sketch.ends_lift_bind fun _ hs' => ?_
  cases hs.symm.trans hs'
  refine (wf.yields_hessianEntries (Interpretation.sketched F) (ω := fun _ => ⟨⟩)
    (Interpretation.takes_twice_sketched.exponents _) (h.length accepted ho) h.means
    (by simp) ?_ ?_).mono fun E a' _ hE => hE.2
  · refine Interpretation.meansAll_sketched fun v hv => ?_
    obtain ⟨i, -, rfl⟩ := List.mem_map.mp (List.mem_toArray.mp hv)
    exact low_const
  · rintro ⟨i, j⟩ mem
    have : (i, j) ∈ sparsity := by
      have := mem
      simp only [TreeSet.mem_ofList, List.contains_iff_mem, List.mem_filter] at this
      exact TreeSet.contains_iff_mem.mp this.2
    exact wf.meet_lt ((meets i j).mp this)

omit h accepted in
theorem Chains.yields_chained {rows : List (TreeMap Nat (Value F))} (h : Chains rows m a)
    {v : Value F} (hv : a.Low 0 v) (input : Nat) (chain : Option Nat) :
    Yields (chained l rows input chain v) a fun v a' => a'.Low 0 v := by
  cases chain with
  | none =>
      simp only [chained]
      exact yields_pure hv
  | some j =>
      cases ht : l.temporaryOf? input with
      | none =>
          simp only [chained, ht]
          exact yields_pure hv
      | some k =>
          simp only [chained, ht]
          exact yields_binary _ hv (low_getD (fun j v hv => (h k j v hv).1) j)

/-! ## Loops -/

variable (hl : l ∈ m.loops) (hs : s.Sketched a)

include hl hs

theorem Sketched.yields_loopInputs : Yields (asm.loopInputs l s) a fun vs a' =>
    vs.length = l.tape.inputCount ∧ ∀ v ∈ vs, a'.Low 0 v := by
  have valid := accepted.loop hl
  have all {a' : Sketch F} {vs ws zs : List (Value F)} (hvs : ∀ v ∈ vs, a'.Low 0 v)
      (hws : ∀ v ∈ ws, a'.Low 0 v) (hzs : ∀ v ∈ zs, a'.Low 0 v) : ∀ v ∈ vs ++ ws ++ zs, a'.Low 0 v :=
    List.forall_mem_append.mpr ⟨List.forall_mem_append.mpr ⟨hvs, hws⟩, hzs⟩
  rw [loopInputs]
  refine Yields.bind (yields_mapM_forall (P := fun v a' => a'.Low 0 v) (fun _ _ _ le h => h.later le)
    fun p _ a' le => (hs.later le).yields_read independentsArray p) fun indexed a₁ le₁ hi => ?_
  refine Yields.bind (yields_mapM_forall (P := fun v a' => a'.Low 0 v) (fun _ _ _ le h => h.later le)
    fun j _ a' le => Sketch.yields_present fun v hv =>
      ((h.later le₁).later le).independent (Array.mem_of_getElem? hv))
    fun nonIndexed a₂ le₂ hn => ?_
  have inputs := valid.inputs
  rw [valid.indexedPatterns.length_eq, ← hi.1, ← hn.1, ← List.length_append] at inputs
  have low (v : Value F) (hv : v ∈ indexed) := (hi.2 v hv).later le₂
  split
  case isTrue empty =>
      rw [List.isEmpty_iff.mp empty, List.length_nil, Nat.add_zero] at inputs
      exact yields_pure ⟨inputs, List.forall_mem_append.mpr ⟨low, hn.2⟩⟩
  case isFalse =>
      refine Yields.bind ((h.later (le₁.trans le₂)).yields_temporaries accepted)
        fun zs a₃ le₃ hz => ?_
      refine Yields.bind (yields_mapM_forall (P := fun v a' => a'.Low 0 v)
        (fun _ _ _ le h => h.later le) fun k _ a' le => Sketch.yields_present fun v hv =>
          (hz v (List.mem_toArray.mp (Array.mem_of_getElem? hv))).later le)
        fun temporaries a₄ le₄ ht => ?_
      have le := le₃.trans le₄
      refine yields_pure ⟨?_, all (fun v hv => (low v hv).later le)
        (fun v hv => (hn.2 v hv).later le) ht.2⟩
      rw [List.length_append, ht.1, inputs]

omit h in
theorem Sketched.yields_loopWeights : Yields (loopWeights l s) a fun ws a' =>
    ws.length = l.tape.outputCount ∧ ∀ w ∈ ws, a'.Low 0 w := by
  have valid := accepted.loop hl
  refine (yields_mapM_forall (P := fun v a' => a'.Low 0 v) (fun _ _ _ le h => h.later le)
    fun p _ a' le => (hs.later le).yields_read weightsArray p).mono fun ws a' _ hw => ⟨?_, hw.2⟩
  rw [hw.1, ← valid.dependentPatterns.length_eq, valid.outputs]

end

end Assembly

end LoopDiff
