import LoopDiff.Loop.Scope
import LoopDiff.Proofs.Graph.Sketch

/-!
# LoopDiff.Proofs.Loop.Sketch

The nodes of a loop under construction, whether or not it can be closed.

A loop body is made of numbers and writes, of branches and their results.
Whatever is contributed to a loop, none of its nodes is above the tier of
branches (`LoopScope.Sketched`), and closing it adds a node that was not there
before (`LoopScope.yields_close`).
-/

namespace LoopDiff

open Arena Sketch

variable {F : Type} {a a' : Sketch F}

/-! ## The nodes of a loop -/

/-- The nodes of a conditional are nodes of branches. -/
structure Skeleton.Sketched (k : Skeleton) (a : Sketch F) : Prop where
  branch {b : Branch} : b ∈ k.branches → a.Low 1 (.node b.node)
  endIf : a.Low 1 (.node k.endIf)

theorem Skeleton.Sketched.later {k : Skeleton} (h : k.Sketched a) (le : a ≤ a') :
    k.Sketched a' :=
  ⟨fun hb => (h.branch hb).later le, h.endIf.later le⟩

namespace LoopScope

variable {s : LoopScope}

/-- The nodes of a loop are below those of closed loops. -/
structure Sketched (s : LoopScope) (a : Sketch F) : Prop where
  start : a.Low 0 (.node s.start)
  index : a.Low 0 (.node s.index)
  result {r : NodeRef} : r ∈ s.results → a.Low 1 (.node r)
  skeleton {partition : Partition} {k : Skeleton} : (partition, k) ∈ s.skeletons → k.Sketched a

theorem Sketched.later (h : s.Sketched a) (le : a ≤ a') : s.Sketched a' :=
  ⟨h.start.later le, h.index.later le, fun hr => (h.result hr).later le,
    fun hk => (h.skeleton hk).later le⟩

theorem Sketched.addResult (h : s.Sketched a) {r : NodeRef} (hr : a.Low 1 (.node r)) :
    (s.addResult r).Sketched a where
  __ := h
  result hr' := by
    rcases List.mem_append.mp hr' with hr' | hr'
    · exact h.result hr'
    · cases List.mem_singleton.mp hr'
      exact hr

/-! ## Reading and writing -/

variable [Scalar F] {v : Value F}

theorem Sketched.yields_pattern (p : Pattern) :
    Yields (s.pattern p : Recording F Nat) a fun _ _ => True :=
  yields_addPattern p _

theorem Sketched.yields_detect (table : Std.TreeMap Nat Nat) :
    Yields (s.detect table : Recording F Nat) a fun _ _ => True :=
  ends_present_bind fun p _ => Sketched.yields_pattern p

theorem Sketched.yields_begin (loop iterations : Nat) :
    Yields (begin loop iterations : Recording F LoopScope) a fun s a' => s.Sketched a' := by
  refine Yields.bind (yields_push (by decide) (by simp)) fun start a₁ _ hstart => ?_
  refine Yields.bind (yields_push (by decide) fun v hv => ?_) fun index a₂ le hindex => ?_
  · exact List.mem_singleton.mp hv ▸ hstart
  · exact yields_pure ⟨hstart.later le, hindex, by simp, by simp⟩

theorem Sketched.yields_read (h : s.Sketched a) (array : Nat) (p : Pattern) :
    Yields (s.read array p) a fun v a' => a'.Low 0 v := by
  refine Yields.bind (Sketched.yields_pattern p) fun i a₁ le _ => ?_
  refine Yields.bind (yields_push (by decide) fun v hv => ?_) fun r a₂ _ hr => yields_pure hr
  exact List.mem_singleton.mp hv ▸ h.index.later le

theorem Sketched.yields_writeNode (h : s.Sketched a) (hv : a.Low 0 v) (p : Nat) (add : Bool) :
    Yields (s.writeNode v p add) a fun r a' => a'.Low 0 (.node r) := by
  refine yields_push (by decide) fun w hw => ?_
  rcases List.mem_pair.mp hw with rfl | rfl
  · exact hv
  · exact h.index

theorem Sketched.yields_write (h : s.Sketched a) (hv : a.Low 0 v) (p : Nat) (add : Bool) :
    Yields (s.write v p add) a fun s' a' => s'.Sketched a' := by
  refine Yields.bind (h.yields_writeNode hv p add) fun r a' le hr => ?_
  exact yields_pure ((h.later le).addResult (hr.mono (Nat.zero_le 1)))

theorem Sketched.yields_repeated (hv : a.Low 0 v) (count : Nat) :
    Yields (repeated v count) a fun w a' => a'.Low 0 w := by
  rw [repeated]
  exact yields_foldlM (fun _ w a' => a'.Low 0 w) hv fun _ _ _ _ _ _ le hw =>
    yields_binary _ hw (hv.later le)

theorem Sketched.yields_partWrites (h : s.Sketched a) (hv : a.Low 0 v) (parts : List Part) :
    Yields (s.partWrites v parts) a fun ws a' => ∀ w ∈ ws, a'.Low 0 (.node w) := by
  refine (yields_mapM_forall (P := fun w a' => a'.Low 0 (.node w)) (fun _ _ _ le h => h.later le)
    ?_).mono fun _ _ _ h => h.2
  rintro ⟨count, locations⟩ - a₁ le
  refine Yields.bind (Sketched.yields_repeated (hv.later le) count) fun w a₂ le₂ hw => ?_
  refine Yields.bind (Sketched.yields_detect locations) fun p a₃ le₃ _ => ?_
  exact (h.later (le.trans (le₂.trans le₃))).yields_writeNode (hw.later le₃) p true

/-! ## Conditionals -/

theorem Sketched.yields_condition (h : s.Sketched a) (iterations : List Nat) (taken : IndexSet) :
    Yields (s.condition iterations taken : Recording F NodeRef) a fun r a' =>
      a'.Low 1 (.node r) := by
  refine (yields_push (by decide) fun v hv => ?_).mono fun _ _ _ hr => hr.mono (Nat.zero_le 1)
  exact List.mem_singleton.mp hv ▸ h.index

/-- The nodes of a conditional under construction are nodes of branches. -/
structure Progress.Sketched (p : Progress F) (a : Sketch F) : Prop where
  start {r : NodeRef} : p.start = some r → a.Low 1 (.node r)
  earlier {v : Value F} : v ∈ p.earlier → a.Low 1 v
  branch {b : Branch} : b ∈ p.branches → a.Low 1 (.node b.node)

theorem Sketched.yields_branchNode (h : s.Sketched a) {p : Progress F} (hp : p.Sketched a)
    (iterations : List Nat) :
    Yields (s.branchNode p.start iterations p.taken p.earlier) a fun r a' =>
      a'.Low 1 (.node r) := by
  have later {a' : Sketch F} (le : a ≤ a') (vs : List (Value F)) (hvs : ∀ v ∈ vs, a'.Low 1 v) :
      ∀ v ∈ vs ++ p.earlier, a'.Low 1 v := fun v hv =>
    (List.mem_append.mp hv).elim (hvs v) fun hv => (hp.earlier hv).later le
  cases hs : p.start with
  | none =>
      rw [branchNode]
      refine Yields.bind (h.yields_condition iterations p.taken) fun c a₁ le hc => ?_
      exact yields_push (by decide) (later le [.node c] (by simpa using hc))
  | some start =>
      have hstart := hp.start hs
      rw [branchNode]
      split
      case isTrue =>
          exact yields_push (by decide) (later le_rfl [.node start] (by simpa using hstart))
      case isFalse =>
          refine Yields.bind (h.yields_condition iterations p.taken) fun c a₁ le hc => ?_
          exact yields_push (by decide) (later le [.node start, .node c]
            (by simpa using ⟨hstart.later le, hc⟩))

theorem Sketched.yields_addBranch (h : s.Sketched a) {p : Progress F} (hp : p.Sketched a)
    (iterations : List Nat) {write : NodeRef} (hw : a.Low 0 (.node write)) :
    Yields (s.addBranch p iterations write) a fun p' a' => p'.Sketched a' := by
  refine Yields.bind (h.yields_branchNode hp iterations) fun node a₁ le₁ hnode => ?_
  refine Yields.bind (yields_push (by decide) fun v hv => ?_) fun result a₂ le₂ hresult => ?_
  · rcases List.mem_pair.mp hv with rfl | rfl
    · exact hnode
    · exact (hw.later le₁).mono (Nat.zero_le 1)
  · refine yields_pure ⟨?_, ?_, ?_⟩
    · rintro _ ⟨⟩
      cases hs : p.start with
      | none => exact hnode.later le₂
      | some start => exact (hp.start hs).later (le₁.trans le₂)
    · intro v hv
      cases List.mem_singleton.mp hv
      exact hresult
    · intro b hb
      rcases List.mem_append.mp hb with hb | hb
      · exact (hp.branch hb).later (le₁.trans le₂)
      · cases List.mem_singleton.mp hb
        exact hnode.later le₂

theorem Sketched.yields_newConditional (h : s.Sketched a) (partition : Partition)
    {writes : List NodeRef} (hw : ∀ w ∈ writes, a.Low 0 (.node w)) :
    Yields (s.newConditional partition writes : Recording F Skeleton) a fun k a' =>
      k.Sketched a' := by
  refine Yields.bind (yields_foldlM (fun _ (p : Progress F) a' => p.Sketched a')
    ⟨by simp, by simp, by simp⟩ ?_) fun p a₁ _ hp => ?_
  · rintro done ⟨iterations, write⟩ rest p a₁ split le hp
    have mem : (iterations, write) ∈ partition.zip writes := by simp [split]
    exact (h.later le).yields_addBranch hp iterations
      ((hw write (List.of_mem_zip mem).2).later le)
  · refine Yields.bind (yields_push (by decide) fun v hv => hp.earlier hv) fun r a₂ le hr => ?_
    exact yields_pure ⟨fun hb => (hp.branch hb).later le, hr⟩

theorem Sketched.yields_extend {k : Skeleton} (hk : k.Sketched a) {writes : List NodeRef}
    (hw : ∀ w ∈ writes, a.Low 0 (.node w)) :
    Yields (extend k writes : Recording F Unit) a fun _ _ => True := by
  refine yields_forM ?_
  rintro ⟨⟨branch, follower⟩, write⟩ mem a₁ le
  obtain ⟨pair, hwrite⟩ := List.of_mem_zip mem
  obtain ⟨hb, hf⟩ := List.of_mem_zip pair
  have low : a.Low 1 (.node follower) := by
    rcases List.mem_append.mp hf with hf | hf
    · obtain ⟨b, hb, rfl⟩ := List.mem_map.mp (List.mem_of_mem_tail hf)
      exact hk.branch hb
    · cases List.mem_singleton.mp hf
      exact hk.endIf
  refine Yields.bind (yields_push (by decide) fun v hv => ?_) fun result a₂ le₂ hresult => ?_
  · rcases List.mem_pair.mp hv with rfl | rfl
    · exact (hk.branch hb).later le
    · exact ((hw write hwrite).later le).mono (Nat.zero_le 1)
  · exact yields_append (low.later (le.trans le₂)) hresult

/-! ## Contributions -/

/-- What has been placed is a number or a branch. -/
def Placed.Sketched (a : Sketch F) : Placed F → Prop
  | .everywhere v _ => a.Low 0 v
  | .conditional endIf => a.Low 1 (.node endIf)

theorem Sketched.yields_inBranches (h : s.Sketched a) (hv : a.Low 0 v)
    (groups : Std.TreeMap Nat (Std.TreeMap Nat Nat)) :
    Yields (place.inBranches s v groups) a fun p a' => p.1.Sketched a' ∧ p.2.Sketched a' := by
  refine Yields.bind (h.yields_partWrites hv _) fun writes a₁ le₁ hw => ?_
  have h₁ := h.later le₁
  cases hk : s.skeletons.lookup (partitionOf (parts groups)) with
  | some k =>
      obtain ⟨partition, mem⟩ : ∃ partition, (partition, k) ∈ s.skeletons := by
        obtain ⟨before, after, eq, -⟩ := List.lookup_eq_some_iff.mp hk
        exact ⟨_, eq ▸ List.mem_append_right _ (List.mem_cons_self ..)⟩
      refine Yields.bind (Sketched.yields_extend (h₁.skeleton mem) hw) fun _ a₂ le₂ _ => ?_
      have h₂ := h₁.later le₂
      exact yields_pure ⟨⟨h₂.start, h₂.index, h₂.result, h₂.skeleton⟩, (h₂.skeleton mem).endIf⟩
  | none =>
      refine Yields.bind (h₁.yields_newConditional _ hw) fun k a₂ le₂ hk => ?_
      have h₂ := h₁.later le₂
      refine yields_pure ⟨⟨h₂.start, h₂.index, h₂.result, fun mem => ?_⟩, hk.endIf⟩
      rcases List.mem_append.mp mem with mem | mem
      · exact h₂.skeleton mem
      · cases List.mem_singleton.mp mem
        exact hk

theorem Sketched.yields_place (h : s.Sketched a) (hv : a.Low 0 v) (claims : Claims) :
    Yields (s.place claims v) a fun p a' => p.1.Sketched a' ∧ p.2.Sketched a' := by
  rw [place]
  split
  case isTrue => exact ends_throw.bind fun _ _ h => False.elim h
  case isFalse =>
      dsimp only
      split
      case h_1 =>
          split
          case isTrue =>
              refine Yields.bind (Sketched.yields_repeated hv _) fun w a₁ le₁ hw => ?_
              refine Yields.bind (Sketched.yields_detect _) fun p a₂ le₂ _ => ?_
              exact yields_pure ⟨h.later (le₁.trans le₂), hw.later le₂⟩
          case isFalse => exact h.yields_inBranches hv _
      case h_2 => exact h.yields_inBranches hv _

theorem Sketched.yields_contribute (h : s.Sketched a) (hv : a.Low 0 v) (claims : Claims) :
    Yields (s.contribute claims v) a fun s' a' => s'.Sketched a' := by
  rw [contribute]
  split
  case isTrue => exact yields_pure h
  case isFalse =>
      refine Yields.bind (h.yields_place hv claims) ?_
      rintro ⟨s', placed⟩ a₁ - ⟨h', hp⟩
      cases placed with
      | everywhere w p => exact h'.yields_write hp p true
      | conditional endIf => exact yields_pure (h'.addResult hp)

/-- Closing a loop, if it has results, adds a node that was not there. -/
theorem Sketched.yields_close (h : s.Sketched a) :
    Yields (s.close : Recording F (Option NodeRef)) a fun loop? a' => ∀ loop, loop? = some loop →
      a.arena.size ≤ loop.index ∧ a'.LoopEnd loop := by
  rw [close]
  split
  case isTrue => exact yields_pure (by simp)
  case isFalse =>
      have low : ∀ v ∈ (.node s.start : Value F) :: s.results.eraseDups.map Value.node,
          a.Low 2 v := by
        refine List.forall_mem_cons.mpr ⟨h.start.mono (Nat.zero_le 2), fun v hv => ?_⟩
        obtain ⟨r, hr, rfl⟩ := List.mem_map.mp hv
        exact (h.result (List.mem_eraseDups.mp hr)).mono (Nat.le_succ 1)
      refine Worlds.Ends.bind (ends_pushNew (by simp) low) ?_
      rintro r _ ⟨index, hr, rfl⟩
      refine ends_pure ⟨spares_pushed Nat.le.refl (fits_of_low low), ?_⟩
      rintro _ ⟨⟩
      exact ⟨index.ge, _, hr, rfl⟩

end LoopScope

end LoopDiff
