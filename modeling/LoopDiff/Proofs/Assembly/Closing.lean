import LoopDiff.Proofs.Assembly.Jacobian
import LoopDiff.Proofs.Assembly.Layout
import LoopDiff.Proofs.Assembly.Sketch
import LoopDiff.Proofs.Assembly.Stages
import LoopDiff.Proofs.Assembly.Streams

/-!
# LoopDiff.Proofs.Assembly.Closing

What the stages of an assembly leave, whether or not it can be finished.

Before any loop the outputs are numbers and nodes of the lowest tier
(`Outputs.Sketched`).  A loop that is closed has a new end and adds to distinct
locations (`Closing.Sketched`).  In both cases only those locations are touched
whose element, by the relations of `Proofs.Model.Dependency`, can be nonzero:
every stream of a loop is traced back to the inputs of the loop tape and to the
independents behind them.
-/

namespace LoopDiff

open Arena Sketch
open Std (TreeMap TreeSet)

variable {F : Type} [Scalar F] {a a' : Sketch F} {m : Model F} {l : Loop F} {P : Nat → Prop}
  {size : Nat}

/-! ## Outputs before any loop -/

namespace Outputs

variable {outputs : Outputs F}

/-- Outputs over numbers and nodes of the lowest tier, which are zero but for
some locations. -/
structure Sketched (outputs : Outputs F) (a : Sketch F) (size : Nat) (P : Nat → Prop) : Prop where
  size_eq : outputs.size = size
  low {k : Nat} {v : Value F} : outputs[k]? = some v → a.Low 0 v
  zero {k : Nat} {v : Value F} : outputs[k]? = some v → ¬P k → v = .const Scalar.zero

theorem Sketched.later (h : outputs.Sketched a size P) (le : a ≤ a') :
    outputs.Sketched a' size P :=
  ⟨h.size_eq, fun hv => (h.low hv).later le, h.zero⟩

theorem Sketched.mono {Q : Nat → Prop} (h : outputs.Sketched a size P) (imp : ∀ k, P k → Q k) :
    outputs.Sketched a size Q :=
  ⟨h.size_eq, h.low, fun hv free => h.zero hv fun hP => free (imp _ hP)⟩

theorem sketched_zeros : (zeros size : Outputs F).Sketched a size P := by
  have zero {k : Nat} {v : Value F} (hv : (zeros size : Outputs F)[k]? = some v) :
      v = .const Scalar.zero := by
    rw [zeros, Array.getElem?_replicate] at hv
    exact (Option.some.inj (Option.ite_none_right_eq_some.mp hv).2).symm
  exact ⟨Array.size_replicate, fun hv => zero hv ▸ low_const, fun hv _ => zero hv⟩

/-- Setting outputs at some of the locations. -/
theorem Sketched.setAll (h : outputs.Sketched a size P) {es : List (Nat × Value F)}
    (low : ∀ e ∈ es, a.Low 0 e.2 ∧ P e.1) :
    Sketched (es.foldl (fun outputs (k, v) => outputs.setIfInBounds k v) outputs) a size P where
  size_eq := (size_foldl_set ..).trans h.size_eq
  low hv := (getElem?_foldl_set hv).elim (fun mem => (low _ mem).1) fun hv => h.low hv.1
  zero hv free := (getElem?_foldl_set hv).elim (fun mem => absurd (low _ mem).2 free)
    fun hv => h.zero hv.1 free

theorem Sketched.set (h : outputs.Sketched a size P) {k : Nat} {v : Value F} (low : a.Low 0 v)
    (hk : P k) : Sketched (outputs.setIfInBounds k v) a size P := by
  have all : ∀ e ∈ [(k, v)], a.Low 0 e.2 ∧ P e.1 := by simpa using ⟨low, hk⟩
  exact h.setAll all

/-- Adding to an output. -/
theorem Sketched.yields_add (h : outputs.Sketched a size P) {k : Nat} {v : Value F}
    (low : a.Low 0 v) (hk : P k) : Yields (do
      let sum ← Recording.reporting
        (Value.binary (.binary .add) (outputs.getD k (.const Scalar.zero)) v)
      return outputs.setIfInBounds k sum : Recording F (Outputs F)) a fun outputs' a' =>
        Sketched outputs' a' size P := by
  have old : a.Low 0 (outputs.getD k (.const Scalar.zero)) := by
    rw [Array.getD_eq_getD_getElem?]
    cases hw : outputs[k]? with
    | none => exact low_const
    | some w => exact h.low hw
  exact Yields.bind (yields_binary _ old low) fun _ _ le hsum =>
    yields_pure ((h.later le).set hsum hk)

end Outputs

namespace Assembly

variable {asm : Assembly F}

section

variable (h : asm.Sketched m a) (accepted : m.Accepted)

include h accepted

theorem Sketched.yields_outerOutputs :
    Yields asm.outerOutputs a fun outputs a' => outputs.Sketched a' m.range fun _ => True := by
  have values := h.yields_outerValues accepted
  rw [outerOutputs, h.model]
  cases m.outer? with
  | none => exact yields_pure Outputs.sketched_zeros
  | some o =>
      refine Yields.bind values fun zs a₁ _ hz => yields_pure (Outputs.sketched_zeros.setAll ?_)
      exact fun e he => ⟨hz _ (List.of_mem_zip he).2, trivial⟩

theorem Sketched.yields_outerJacobian (locations : PairMap Nat) :
    Yields (asm.outerJacobian locations (Outputs.zeros size)) a fun outputs a' =>
      outputs.Sketched a' size fun k =>
        ∃ e : Nat × Nat, locations[e]? = some k ∧ m.DependsOutside e.1 e.2 := by
  rw [outerJacobian, h.model]
  cases ho : m.outer? with
  | none => exact yields_pure Outputs.sketched_zeros
  | some o =>
      have wf := accepted.outerTape ho
      have valid := accepted.outer ho
      obtain ⟨sparsity, hs, depends⟩ := exists_ok_of_yields wf.yields_jacobianSparsity
      refine Sketch.ends_lift_bind fun _ hs' => ?_
      cases hs.symm.trans hs'
      have asked {i j : Nat} (mem : j ∈ (outerRows o sparsity locations.keys).getD i ∅) :
          o.tape.DependsOn (o.tape.outputAt i) j :=
        ((Tape.mem_row_iff depends).mp ((mem_outerRows valid).mp mem).1).2
      dsimp only
      split
      case isTrue => exact yields_pure Outputs.sketched_zeros
      case isFalse =>
          refine Yields.bind (wf.yields_jacobianEntries (Interpretation.sketched F)
            (Interpretation.takes_dual_sketched.exponents _) (h.length accepted ho) h.means ?_ ?_)
            fun E a₁ _ hE => ?_
          · rw [outerRows_eq, Array.length_toList, size_addPairs, Array.size_replicate]
            exact depends.length_eq.symm
          · intro row hrow j hj
            obtain ⟨i, hi⟩ := List.mem_iff_getElem?.mp hrow
            exact wf.dependsOn_lt (asked (exists_mem_row.mp ⟨row, hi, hj⟩))
          · have kept : Outputs.Sketched ((kept o locations E).foldl (fun outputs (k, v) =>
                outputs.setIfInBounds k v) (Outputs.zeros size)) a₁ size fun k =>
                  ∃ e : Nat × Nat, locations[e]? = some k ∧ m.DependsOutside e.1 e.2 := by
              refine Outputs.sketched_zeros.setAll ?_
              rintro ⟨k, v⟩ mem
              obtain ⟨i, j, d, hd, hk, hv⟩ := mem_kept.mp mem
              have found := (hE.1 (i, j)).mp (TreeMap.mem_iff_isSome_getElem?.mpr (by rw [hv]; rfl))
              exact ⟨hE.2 _ v hv, (d, j), hk, o, ho, i, hd, asked (exists_mem_row.mp found)⟩
            rw [← setEntries_eq] at kept
            exact yields_pure kept

theorem Sketched.yields_outerHessian (layout : Layout) :
    Yields (asm.outerHessian layout (Outputs.zeros size)) a fun outputs a' =>
      outputs.Sketched a' size fun k =>
        ∃ e : Nat × Nat, layout.computed[e]? = some k ∧ m.MeetOutside e.1 e.2 := by
  rw [outerHessian, h.model]
  cases ho : m.outer? with
  | none => exact yields_pure Outputs.sketched_zeros
  | some o =>
      have wf := accepted.outerTape ho
      obtain ⟨sparsity, hs, meets⟩ := exists_ok_of_yields (accepted.yields_outerHessianSparsity ho)
      refine Sketch.ends_lift_bind fun _ hs' => ?_
      cases hs.symm.trans hs'
      dsimp only
      split
      case isTrue => exact yields_pure Outputs.sketched_zeros
      case isFalse =>
          refine Yields.bind (yields_mapM_forall (P := fun v a' => a'.Low 0 v)
            (fun _ _ _ le low => low.later le) fun i _ a' le => ?_) fun seeds a₁ le₁ hω => ?_
          · cases o.dependents.toArray[i]? with
            | none => exact yields_pure low_const
            | some d => exact Sketch.yields_present fun v hv =>
                (h.later le).weight (Array.mem_of_getElem? hv)
          refine Yields.bind (wf.yields_hessianEntries (Interpretation.sketched F)
            (ω := fun _ => ⟨⟩) (Interpretation.takes_twice_sketched.exponents _)
            (h.length accepted ho) (h.later le₁).means ?_ ?_ ?_) fun E a₂ le₂ hE => ?_
          · rw [hω.1, List.length_range]
          · exact Interpretation.meansAll_sketched fun v hv => hω.2 v (List.mem_toArray.mp hv)
          · rintro ⟨i, j⟩ mem
            have mem : (i, j) ∈ layout.computed ∧ (i, j) ∈ sparsity := by simpa using mem
            exact wf.meet_lt ((meets i j).mp mem.2)
          · refine Yields.mono (yields_foldlM (fun _ (outputs : Outputs F) a' =>
              outputs.Sketched a' size fun k =>
                ∃ e : Nat × Nat, layout.computed[e]? = some k ∧ m.MeetOutside e.1 e.2)
              Outputs.sketched_zeros ?_) fun _ _ _ h => h
            rintro done ⟨pair, v⟩ rest outputs a' split le h'
            have hv : E[pair]? = some v := getElem?_of_split split
            dsimp only
            cases hk : layout.computed[pair]? with
            | none => exact yields_pure h'
            | some k =>
                have mem := (hE.1 pair).mp (TreeMap.mem_iff_isSome_getElem?.mpr (by rw [hv]; rfl))
                have mem : pair ∈ layout.computed ∧ pair ∈ sparsity := by simpa using mem
                exact h'.yields_add ((hE.2 _ v hv).later le)
                  ⟨pair, hk, o, ho, (meets _ _).mp mem.2⟩

end

end Assembly

/-! ## Loops -/

/-- A loop that was closed: it adds to distinct locations, and its end was not
there before. -/
structure Closing.Sketched (c : Closing) (a a' : Sketch F) (P : Nat → Prop) : Prop where
  nodup : c.locations.Nodup
  place {k : Nat} : k ∈ c.locations → P k
  fresh {loop : NodeRef} : c.loopEnd? = some loop →
    a.arena.size ≤ loop.index ∧ a'.LoopEnd loop

omit [Scalar F] in
theorem Closing.sketched_none : Closing.Sketched ⟨none, []⟩ a a' P :=
  ⟨List.nodup_nil, by simp, by simp⟩

omit [Scalar F] in
theorem Closing.Sketched.earlier {c : Closing} {a₀ : Sketch F} (h : c.Sketched a a' P)
    (le : a₀ ≤ a) : c.Sketched a₀ a' P :=
  ⟨h.nodup, h.place, fun hloop =>
    ⟨le.keeps.size_le.trans (h.fresh hloop).1, (h.fresh hloop).2⟩⟩

omit [Scalar F] in
theorem Closing.Sketched.mono {c : Closing} {Q : Nat → Prop} (h : c.Sketched a a' P)
    (imp : ∀ k, P k → Q k) : c.Sketched a a' Q :=
  ⟨h.nodup, fun hk => imp _ (h.place hk), h.fresh⟩

/-- Closing a loop for some locations. -/
theorem LoopScope.Sketched.yields_closing {s : LoopScope} (h : s.Sketched a)
    {locations : List Nat} (nodup : locations.Nodup) (place : ∀ k ∈ locations, P k) :
    Yields (do return ⟨← s.close, locations⟩ : Recording F Closing) a fun c a' =>
      c.Sketched a a' P :=
  Yields.bind h.yields_close fun _ _ _ fresh => yields_pure ⟨nodup, place _, fun hloop => fresh _ hloop⟩

namespace Assembly

variable {asm : Assembly F} {rows : List (TreeMap Nat (Value F))} {locations : PairMap Nat}
  {sparsity : List IndexSet}

section

variable (h : asm.Sketched m a) (accepted : m.Accepted) (hl : l ∈ m.loops)

include h accepted hl

theorem Sketched.yields_closeForward :
    Yields (asm.closeForward l) a fun c a' => c.Sketched a a' fun _ => True := by
  have valid := accepted.loop hl
  rw [closeForward]
  refine Yields.bind (LoopScope.Sketched.yields_begin _ _) fun s a₁ le₁ hs => ?_
  refine Yields.bind ((h.later le₁).yields_loopInputs accepted hl hs) fun us a₂ le₂ hu => ?_
  refine Yields.bind ((accepted.loopTape hl).yields_eval (Interpretation.sketched F)
    (Interpretation.takes_sketched.exponents _) hu.1 (Interpretation.meansAll_sketched fun v hv =>
      hu.2 v (List.mem_toArray.mp hv))) fun ys a₃ le₃ hy => ?_
  refine Yields.bind (yields_foldlM (fun _ (s : LoopScope) a' => s.Sketched a')
    (hs.later (le₂.trans le₃)) ?_) fun s' a₄ le₄ hs' => ?_
  · rintro done ⟨p, y⟩ rest s' a' split le hs'
    have mem : (p, y) ∈ l.dependentPatterns.zip ys := by simp [split]
    have low := forall_right_of_forall₂ hy y (List.of_mem_zip mem).2
    refine Yields.bind (LoopScope.Sketched.yields_pattern p) fun i a'' le' _ => ?_
    exact (hs'.later le').yields_write (Low.later low (le.trans le')) i false
  · exact (hs'.yields_closing valid.nodup fun _ _ => trivial).mono fun c a' _ closed =>
      closed.earlier (((le₁.trans le₂).trans le₃).trans le₄)

/-! ### First derivatives -/

omit [Scalar F] h in
/-- A candidate that contributes is for an element that its loop computes. -/
theorem dependsInLoop_of_wanted (chains : Chains rows m a)
    (depends : List.Forall₂ (fun o (row : IndexSet) => ∀ j, j ∈ row ↔ l.tape.DependsOn o j)
      l.tape.outputs sparsity) {c : Candidate} (hc : c ∈ candidates l sparsity locations)
    {stream : JacobianStream} (wanted : wanted? l rows c = some stream) :
    ∃ e : Nat × Nat, locations[e]? = some c.location ∧ m.DependsInLoop l e.1 e.2 := by
  obtain ⟨d, hk, hp, hq⟩ := mem_candidates.mp hc
  obtain ⟨row, hrow, hd⟩ := (accepted.loop hl).getElem?_positions.mp hp
  refine ⟨(d, c.independent), hk, c.equation, row, c.iteration, hrow, hd, c.input,
    ((Tape.mem_row_iff depends).mp hq).2, ?_⟩
  rw [Model.Behind]
  rcases wanted?_eq_some.mp wanted with ⟨t, ht, found, -⟩ | ⟨ht, at_, -⟩
  · rw [ht]
    have found := TreeMap.contains_iff_mem.mp found
    exact (chains t _ _ (TreeMap.getElem?_eq_some_getElem found)).2
  · rw [ht]
    exact at_

theorem Sketched.yields_closeJacobianBody (chains : Chains rows m a)
    {streams : TreeMap JacobianStream Claims} {touched : IndexSet}
    (inside : ∀ s ∈ streams.keys, s.input < l.tape.inputCount) (place : ∀ k ∈ touched, P k) :
    Yields (asm.closeJacobianBody l rows streams touched) a fun c a' => c.Sketched a a' P := by
  have valid := accepted.loop hl
  rw [closeJacobianBody]
  refine Yields.bind (LoopScope.Sketched.yields_begin _ _) fun s a₁ le₁ hs => ?_
  refine Yields.bind ((h.later le₁).yields_loopInputs accepted hl hs) fun us a₂ le₂ hu => ?_
  refine Yields.bind ((accepted.loopTape hl).yields_jacobianEntries (Interpretation.sketched F)
    (Interpretation.takes_dual_sketched.exponents _) hu.1 (Interpretation.meansAll_sketched fun v hv =>
      hu.2 v (List.mem_toArray.mp hv)) ?_ ?_) fun E a₃ le₃ hE => ?_
  · rw [length_neededInputs, valid.outputs]
  · intro row hrow q hq
    obtain ⟨e, he⟩ := List.mem_iff_getElem?.mp hrow
    obtain ⟨-, s, hs, -, rfl⟩ := mem_neededInputs.mp (exists_mem_row.mp ⟨row, he, hq⟩)
    exact inside s hs
  have le := (le₁.trans le₂).trans le₃
  refine Yields.bind (yields_foldlM (fun _ (s : LoopScope) a' => s.Sketched a')
    (hs.later (le₂.trans le₃)) ?_) fun s' a₄ le₄ hs' => ?_
  · rintro done ⟨stream, claims⟩ rest s' a' - le' hs'
    refine Yields.bind ((chains.later (le.trans le')).yields_chained
      (low_getD (fun e v hv => Low.later (hE.2 e v hv) le') _) _ _) fun v a'' le'' hv => ?_
    exact (hs'.later le'').yields_contribute hv claims
  · exact (hs'.yields_closing (nodup_toList touched) fun k hk =>
      place k (TreeSet.mem_toList.mp hk)).mono fun c a' _ closed => closed.earlier (le.trans le₄)

theorem Sketched.yields_closeJacobian :
    Yields (asm.closeJacobian locations l) a fun c a' => c.Sketched a a' fun k =>
      ∃ e : Nat × Nat, locations[e]? = some k ∧ m.DependsInLoop l e.1 e.2 := by
  have valid := accepted.loop hl
  have wf := accepted.loopTape hl
  obtain ⟨sparsity, hs, depends⟩ := exists_ok_of_yields wf.yields_jacobianSparsity
  rw [closeJacobian]
  refine Sketch.ends_lift_bind fun _ hs' => ?_
  cases hs.symm.trans hs'
  refine Yields.bind (h.yields_neededJacobian accepted _) fun rows a₁ le₁ chains => ?_
  obtain ⟨⟨streams, touched⟩, hstreams, collected, locs⟩ := exists_ok_of_yields
    (c := jacobianStreams l rows (candidates l sparsity locations)) (yields_jacobianStreams valid
      (fun c hc => (inside_of_mem_candidates wf valid depends hc).2)
      fun u hu u' hu' => location_eq valid hu hu')
  refine Sketch.ends_lift_bind fun _ hstreams' => ?_
  cases hstreams.symm.trans hstreams'
  dsimp only
  split
  case isTrue => exact yields_pure Closing.sketched_none
  case isFalse =>
      refine ((h.later le₁).yields_closeJacobianBody accepted hl chains ?_ fun k hk => ?_).mono
        fun c a' _ closed => closed.earlier le₁
      · intro s hs
        obtain ⟨u, hu, rfl⟩ :=
          collected.used (TreeMap.getElem?_eq_some_getElem (TreeMap.mem_keys.mp hs))
        obtain ⟨c, hc, s, wanted, rfl⟩ := of_mem_uses hu
        rw [(of_wanted? wanted).2.1]
        exact (inside_of_mem_candidates wf valid depends hc).2.1
      · obtain ⟨u, hu, rfl⟩ := (locs k).mp hk
        obtain ⟨c, hc, s, wanted, rfl⟩ := of_mem_uses hu
        exact dependsInLoop_of_wanted accepted hl chains depends hc wanted

end

/-! ### Second derivatives -/

section

variable {s : LoopStructure F} {layout : Layout} {streams : HessianStreams}
  {requested : List (Nat × Nat)}

omit [Scalar F] in
/-- What an input stands for, as its loop sees it, is behind the input. -/
theorem behind_of_mem (chains : Chains rows m a) (isOf : s.IsOf m l rows) {q it j : Nat}
    {chain : Option Nat} (mem : (j, chain) ∈ s.behind q it) : m.Behind l it q j := by
  rw [LoopStructure.behind, isOf.dependencies, isOf.loop] at mem
  rw [Model.Behind]
  cases ht : l.temporaryOf? q with
  | some t =>
      simp only [ht, Option.map_some, List.mem_map, TreeSet.mem_toList, Prod.mk.injEq] at mem
      obtain ⟨j', found, rfl, -⟩ := mem
      have found : j' ∈ rows.getD t ∅ := by simpa using found
      exact (chains t j' _ (TreeMap.getElem?_eq_some_getElem found)).2
  | none =>
      simp only [ht, Option.map_none, List.mem_map, Option.mem_toList, Prod.mk.injEq] at mem
      obtain ⟨j', at_, rfl, -⟩ := mem
      exact at_

omit [Scalar F] in
/-- A location that a loop claims is that of an element at which independents
meet in the loop. -/
theorem meet_of_touched (chains : Chains rows m a) (isOf : s.IsOf m l rows)
    (claimed : streams.Claimed (s.sparsity.toList.flatMap (s.pairUses layout))
      (s.curved.flatMap (s.secondUses layout))) {k : Nat} (hk : k ∈ streams.touched) :
    ∃ e : Nat × Nat, layout.computed[e]? = some k ∧
      (m.MeetInLoop l e.1 e.2 ∨ m.MeetInTemporary l e.1 e.2) := by
  rcases (claimed.touched k).mp hk with ⟨u, hu, rfl⟩ | ⟨u, hu, rfl⟩
  · obtain ⟨⟨p, q⟩, mem, hu⟩ := List.mem_flatMap.mp hu
    obtain ⟨-, hit, hs⟩ := LoopStructure.mem_pairUses.mp hu
    obtain ⟨row, chainP, col, chainQ, hp, hq, computed, -⟩ := LoopStructure.mem_streamsAt.mp hs
    exact ⟨(row, col), computed, .inl ⟨u.iteration, isOf.loop ▸ hit, p, q,
      (isOf.sparsity p q).mp (TreeSet.mem_toList.mp mem),
      .inl ⟨behind_of_mem chains isOf hp, behind_of_mem chains isOf hq⟩⟩⟩
  · obtain ⟨-, computed, o, t, ho, ht, meet⟩ := isOf.second_inside hu
    obtain ⟨e, mem, hu⟩ := List.mem_flatMap.mp hu
    have used := isOf.used mem
    rw [← (LoopStructure.mem_secondUses.mp hu).1] at used
    exact ⟨_, computed, .inr ⟨o, ho, u.stream.input, t, ht, used, meet⟩⟩

/-- Derivatives for the streams of a loop, over numbers and nodes of the lowest
tier. -/
structure BodyDerivatives.Sketched (d : BodyDerivatives F) (a : Sketch F) : Prop where
  entry {e : Nat × Nat} {v : Value F} : d.entries[e]? = some v → a.Low 0 v
  gradient {v : Value F} : v ∈ d.gradient → a.Low 0 v
  second {k : Nat} {e : Nat × Nat} {v : Value F} : (d.second.getD k ∅)[e]? = some v → a.Low 0 v

variable {d : BodyDerivatives F}

omit [Scalar F] in
theorem BodyDerivatives.Sketched.later (h : d.Sketched a) (le : a ≤ a') : d.Sketched a' :=
  ⟨fun hv => (h.entry hv).later le, fun hv => (h.gradient hv).later le,
    fun hv => (h.second hv).later le⟩

theorem Chains.yields_pairStreamValue (chains : Chains rows m a) {E : PairMap (Value F)}
    (low : ∀ (e : Nat × Nat) (v : Value F), E[e]? = some v → a.Low 0 v) (stream : PairStream) :
    Yields (pairStreamValue l rows E stream) a fun v a' => a'.Low 0 v :=
  Yields.bind (chains.yields_chained (low_getD low _) _ _) fun _ _ le hv =>
    (chains.later le).yields_chained hv _ _

theorem BodyDerivatives.Sketched.yields_secondStreamValue (h : d.Sketched a)
    (stream : SecondStream) :
    Yields (secondStreamValue l d.second d.gradient stream) a fun v a' => a'.Low 0 v := by
  rw [secondStreamValue]
  refine yields_binary _ ?_ ?_
  · rw [Array.getD_eq_getD_getElem?]
    cases hv : d.gradient[stream.input]? with
    | none => exact low_const
    | some v => exact h.gradient (Array.mem_of_getElem? hv)
  · cases l.temporaryOf? stream.input with
    | none => exact low_const
    | some k => exact low_getD (fun e v hv => h.second hv) _

variable (h : asm.Sketched m a) (accepted : m.Accepted) (hl : l ∈ m.loops)

include h accepted hl

theorem Sketched.yields_secondDerivatives {streams : List SecondStream}
    (requested : List (Nat × Nat)) :
    Yields (asm.secondDerivatives l streams requested) a fun second a' =>
      ∀ (k : Nat) (e : Nat × Nat) (v : Value F), (second.getD k ∅)[e]? = some v → a'.Low 0 v := by
  rw [secondDerivatives]
  refine Yields.mono (yields_foldlM (fun _ (second : TreeMap Nat (PairMap (Value F))) a' =>
    ∀ (k : Nat) (e : Nat × Nat) (v : Value F), (second.getD k ∅)[e]? = some v → a'.Low 0 v)
    (by simp) ?_) fun _ _ _ h => h
  intro done k rest second a' split le hsecond
  have mem : k ∈ streams.filterMap fun s => l.temporaryOf? s.input := by
    have : k ∈ (TreeSet.ofList (streams.filterMap fun s => l.temporaryOf? s.input) :
        IndexSet).toList := by simp [split]
    simpa using this
  obtain ⟨s, -, ht⟩ := List.mem_filterMap.mp mem
  have lt := accepted.valid.temporaries_lt hl k (Loop.mem_of_temporaryOf? ht)
  obtain ⟨o, ho⟩ : ∃ o, m.outer? = some o := by
    refine Option.ne_none_iff_exists'.mp fun none => ?_
    rw [none] at lt
    exact absurd lt (Nat.not_lt_zero k)
  refine Yields.bind ((h.later le).yields_temporaryHessian accepted ho
    (accepted.temporary_lt hl ho ht) requested) fun E a'' le' hE => ?_
  refine yields_pure fun k' e v hv => ?_
  rw [TreeMap.getD_insert] at hv
  split at hv
  case isTrue => exact hE e v hv
  case isFalse => exact (hsecond k' e v hv).later le'

theorem Sketched.yields_bodyDerivatives {s : LoopScope} (hs : s.Sketched a)
    (inside : ∀ s ∈ streams.pairs.keys,
      s.hi < l.tape.inputCount ∧ s.lo < l.tape.inputCount) :
    Yields (asm.bodyDerivatives l s streams requested) a fun d a' => d.Sketched a' := by
  have wf := accepted.loopTape hl
  rw [bodyDerivatives]
  refine Yields.bind (h.yields_loopInputs accepted hl hs) fun us a₁ le₁ hu => ?_
  refine Yields.bind (yields_loopWeights accepted hl (hs.later le₁)) fun ws a₂ le₂ hw => ?_
  have inputs {a' : Sketch F} (le : a₁ ≤ a') :
      (Interpretation.sketched F).meansAll a' us.toArray fun _ => ⟨⟩ :=
    Interpretation.meansAll_sketched fun v hv => (hu.2 v (List.mem_toArray.mp hv)).later le
  have weights {a' : Sketch F} (le : a₂ ≤ a') :
      (Interpretation.sketched F).meansAll a' ws.toArray fun _ => ⟨⟩ :=
    Interpretation.meansAll_sketched fun v hv => (hw.2 v (List.mem_toArray.mp hv)).later le
  refine Yields.bind (wf.yields_hessianEntries (Interpretation.sketched F)
    (Interpretation.takes_twice_sketched.exponents _) hu.1 (inputs le₂) hw.1
    (weights le_rfl) ?_) fun E a₃ le₃ hE => ?_
  · intro e mem
    obtain ⟨s, hs, rfl⟩ : ∃ s ∈ streams.pairs.keys, (s.hi, s.lo) = e := by simpa using mem
    exact inside s hs
  refine Yields.bind (P := fun (gradient : List (Value F)) (a' : Sketch F) =>
    ∀ v ∈ gradient, a'.Low 0 v) ?_ fun gradient a₄ le₄ hg => ?_
  · rw [neededGradient]
    split
    case isTrue =>
        refine (wf.yields_gradient (Interpretation.sketched F)
          (Interpretation.takes_dual_sketched.exponents _) hu.1
          (inputs (le₂.trans le₃)) hw.1 (weights le₃)).mono fun gradient a' _ hg v hv => ?_
        obtain ⟨i, hi⟩ := List.mem_iff_getElem?.mp hv
        exact hg.2 i v (by rwa [List.getElem?_toArray])
    case isFalse => exact yields_pure (by simp)
  have le := ((le₁.trans le₂).trans le₃).trans le₄
  refine Yields.bind ((h.later le).yields_secondDerivatives accepted hl requested)
    fun second a₅ le₅ hd => yields_pure ⟨fun hv => ?_, fun hv => ?_, fun hv => hd _ _ _ hv⟩
  · exact Low.later (hE.2 _ _ hv) (le₄.trans le₅)
  · exact (hg _ (List.mem_toArray.mp hv)).later le₅

theorem Sketched.yields_closeHessianBody (chains : Chains rows m a)
    (inside : ∀ s ∈ streams.pairs.keys, s.hi < l.tape.inputCount ∧ s.lo < l.tape.inputCount)
    (place : ∀ k ∈ streams.touched, P k) :
    Yields (asm.closeHessianBody l rows streams requested) a fun c a' => c.Sketched a a' P := by
  rw [closeHessianBody]
  refine Yields.bind (LoopScope.Sketched.yields_begin _ _) fun s a₁ le₁ hs => ?_
  refine Yields.bind ((h.later le₁).yields_bodyDerivatives accepted hl hs inside)
    fun d a₂ le₂ hd => ?_
  refine Yields.bind (yields_foldlM (fun _ (s : LoopScope) a' => s.Sketched a') (hs.later le₂) ?_)
    fun s₃ a₃ le₃ hs₃ => ?_
  · rintro done ⟨stream, claims⟩ rest s' a' - le hs'
    refine Yields.bind ((chains.later ((le₁.trans le₂).trans le)).yields_pairStreamValue
      (fun e v hv => (hd.entry hv).later le) stream) fun v a'' le' hv => ?_
    exact (hs'.later le').yields_contribute hv claims
  refine Yields.bind (yields_foldlM (fun _ (s : LoopScope) a' => s.Sketched a') hs₃ ?_)
    fun s₄ a₄ le₄ hs₄ => ?_
  · rintro done ⟨stream, claims⟩ rest s' a' - le hs'
    refine Yields.bind ((hd.later (le₃.trans le)).yields_secondStreamValue stream)
      fun v a'' le' hv => ?_
    exact (hs'.later le').yields_contribute hv claims
  · exact (hs₄.yields_closing (nodup_toList _) fun k hk => place k (TreeSet.mem_toList.mp hk)).mono
      fun c a' _ closed => closed.earlier (((le₁.trans le₂).trans le₃).trans le₄)

theorem Sketched.yields_closeHessian
    (lower : ∀ (e : Nat × Nat) (k : Nat), layout.computed[e]? = some k → e.2 ≤ e.1) :
    Yields (asm.closeHessian layout l) a fun c a' => c.Sketched a a' fun k =>
      ∃ e : Nat × Nat, layout.computed[e]? = some k ∧
        (m.MeetInLoop l e.1 e.2 ∨ m.MeetInTemporary l e.1 e.2) := by
  rw [closeHessian]
  refine Yields.bind (h.yields_neededJacobian accepted _) fun rows a₁ le₁ chains => ?_
  split
  case isTrue => exact yields_pure Closing.sketched_none
  case isFalse =>
      obtain ⟨s, hs, isOf⟩ :=
        exists_ok_of_yields (LoopStructure.yields_loopStructure rows h.model accepted hl)
      refine Sketch.ends_lift_bind fun _ hs' => ?_
      cases hs.symm.trans hs'
      obtain ⟨streams, hstreams, claimed⟩ := exists_ok_of_yields
        (s.yields_streams (by rw [isOf.loop]; exact (accepted.loop hl).pos) lower)
      refine Sketch.ends_lift_bind fun _ hstreams' => ?_
      cases hstreams.symm.trans hstreams'
      split
      case isTrue => exact yields_pure Closing.sketched_none
      case isFalse =>
          refine ((h.later le₁).yields_closeHessianBody accepted hl chains ?_
            fun k hk => meet_of_touched chains isOf claimed hk).mono
              fun c a' _ closed => closed.earlier le₁
          intro stream hstream
          obtain ⟨u, hu, rfl⟩ :=
            claimed.pairs.used (TreeMap.getElem?_eq_some_getElem (TreeMap.mem_keys.mp hstream))
          obtain ⟨hi, lo, -⟩ := isOf.pair_inside (accepted.loopTape hl) hu
          exact ⟨hi.1, lo.1⟩

end

end Assembly

/-! ## Assemblers -/

/-- The output at a location can be nonzero, by the dependencies of the model. -/
def Model.Touches (m : Model F) (k : Nat) : Assembler → Prop
  | .forward => True
  | .jacobian elements => ∃ e : Nat × Nat, elements[k]? = some e ∧ m.Depends e.1 e.2
  | .hessian elements => ∃ e : Nat × Nat, elements[k]? = some e ∧ m.Meet e.1 e.2

namespace Assembly

/-- A location that can be nonzero and names no other. -/
def Stages.Own (stages : Stages F) (m : Model F) (p : Assembler) (k : Nat) : Prop :=
  m.Touches k p ∧ k ∉ stages.synonyms.map Prod.fst

/-- The stages of an assembler touch only outputs that can be nonzero and name no
others. -/
structure Stages.Sketched (stages : Stages F) (asm : Assembly F) (m : Model F) (p : Assembler) :
    Prop where
  start {a : Sketch F} : asm.Sketched m a → Yields stages.start a fun outputs a' =>
    outputs.Sketched a' (p.size m) (stages.Own m p)
  close {a : Sketch F} {l : Loop F} : l ∈ m.loops → asm.Sketched m a →
    Yields (stages.close l) a fun c a' => c.Sketched a a' (stages.Own m p)
  mirrors {k source : Nat} : (k, source) ∈ stages.synonyms ↔ p.Mirrors k source
  nodup : (stages.synonyms.map Prod.fst).Nodup

section

variable {asm : Assembly F} (accepted : m.Accepted)

include accepted

theorem sketched_forward : Stages.Sketched ⟨asm.outerOutputs, asm.closeForward, []⟩ asm m
    .forward := by
  have own (k : Nat) (_ : True) : Stages.Own (F := F) ⟨asm.outerOutputs, asm.closeForward, []⟩ m
      .forward k := ⟨trivial, List.not_mem_nil⟩
  exact ⟨fun h => (h.yields_outerOutputs accepted).mono fun _ _ _ h => h.mono own,
    fun hl h => (h.yields_closeForward accepted hl).mono fun _ _ _ h => h.mono own,
    by simp [Assembler.Mirrors], by simp⟩

theorem sketched_jacobian {elements : List (Nat × Nat)} {locations : PairMap Nat}
    (located : ∀ (e : Nat × Nat) (k : Nat), locations[e]? = some k ↔ elements[k]? = some e) :
    Stages.Sketched ⟨asm.outerJacobian locations (Outputs.zeros elements.length),
      asm.closeJacobian locations, []⟩ asm m (.jacobian elements) := by
  have own {Q : Nat × Nat → Prop} (depends : ∀ e, Q e → m.Depends e.1 e.2) (k : Nat)
      (h : ∃ e : Nat × Nat, locations[e]? = some k ∧ Q e) : Stages.Own (F := F)
        ⟨asm.outerJacobian locations (Outputs.zeros elements.length),
          asm.closeJacobian locations, []⟩ m (.jacobian elements) k := by
    obtain ⟨e, hk, he⟩ := h
    exact ⟨⟨e, (located e k).mp hk, depends e he⟩, List.not_mem_nil⟩
  exact ⟨fun h => (h.yields_outerJacobian accepted locations).mono fun _ _ _ h =>
      h.mono (own fun _ => .inl),
    fun hl h => (h.yields_closeJacobian accepted hl).mono fun _ _ _ h =>
      h.mono (own fun _ depends => .inr ⟨_, hl, depends⟩), by simp [Assembler.Mirrors], by simp⟩

theorem sketched_hessian {elements : List (Nat × Nat)} {layout : Layout}
    (isOf : layout.IsOf elements) (distinct : (layout.synonyms.map Prod.fst).Nodup) :
    Stages.Sketched ⟨asm.outerHessian layout (Outputs.zeros elements.length),
      asm.closeHessian layout, layout.synonyms⟩ asm m (.hessian elements) := by
  have own {Q : Nat × Nat → Prop} (meet : ∀ e, Q e → m.Meet e.1 e.2) (k : Nat)
      (h : ∃ e : Nat × Nat, layout.computed[e]? = some k ∧ Q e) : Stages.Own (F := F)
        ⟨asm.outerHessian layout (Outputs.zeros elements.length), asm.closeHessian layout,
          layout.synonyms⟩ m (.hessian elements) k := by
    obtain ⟨e, hk, he⟩ := h
    refine ⟨?_, isOf.not_synonym hk⟩
    rcases isOf.computed.mp hk with ⟨-, here⟩ | ⟨-, here, -⟩
    · exact ⟨e, here, meet e he⟩
    · exact ⟨e.swap, here, (meet e he).symm⟩
  exact ⟨fun h => (h.yields_outerHessian accepted layout).mono fun _ _ _ h =>
      h.mono (own fun _ => .inl),
    fun hl h => (h.yields_closeHessian accepted hl fun e k hk => (isOf.lower e k hk).1).mono
      fun _ _ _ h => h.mono (own fun _ meet => .inr ⟨_, hl, meet⟩),
    isOf.synonym, distinct⟩

/-- The stages of any assembler. -/
theorem sketched_stages {p : Assembler} {stages : Stages F} (h : asm.stages p = .ok stages) :
    stages.Sketched asm m p := by
  cases p with
  | forward =>
      cases h
      exact sketched_forward accepted
  | jacobian elements =>
      obtain ⟨locations, found, made⟩ := bind_eq_ok h
      cases made
      obtain ⟨_, found', located⟩ :=
        exists_ok_of_yields (yields_elementLocations (nodup_of_elementLocations found))
      cases found.symm.trans found'
      exact sketched_jacobian accepted located
  | hessian elements =>
      obtain ⟨layout, found, made⟩ := bind_eq_ok h
      cases made
      obtain ⟨nodup, distinct⟩ := Layout.nodup_of_ofElements found
      obtain ⟨_, found', isOf⟩ := exists_ok_of_yields (Layout.yields_ofElements nodup)
      cases found.symm.trans found'
      exact sketched_hessian accepted isOf distinct

end

end Assembly

end LoopDiff
