import LoopDiff.Proofs.Assembly.Closing

/-!
# LoopDiff.Proofs.Assembly.Merging

Accumulations and the outputs that own them.

An output to which loops have been added holds an accumulation that was recorded
for it, over what the output was before, if it was not zero, and the ends of the
loops in the order in which they were added (`Slot`).  Every accumulation of the
arena is held by an output (`Slots.owned`), so more arguments for it change that
output only.  Adding a loop to one output keeps all others as they are
(`Slots.ends_addLoop`), and so does an assembly as a whole
(`Assembly.Stages.Sketched.ends_run`).
-/

namespace LoopDiff

open Arena Sketch

variable {F : Type} [Scalar F] {a a' : Sketch F} {k : Nat} {v : Value F} {loop : NodeRef}

/-! ## Slots -/

/-- What an accumulation keeps of the output that it replaces. -/
def Value.kept (v : Value F) : List (Value F) := if v.isZero then [] else [v]

theorem Value.of_mem_kept {w : Value F} (h : w ∈ v.kept) : w = v := by
  rw [kept] at h
  split at h
  · cases h
  · exact List.mem_singleton.mp h

/-- What an output holds that was `start` before some loops were added to it. -/
inductive Slot (a : Sketch F) (k : Nat) (start : Value F) : List NodeRef → Value F → Prop
  | plain : Slot a k start [] start
  | merged {r : NodeRef} {ends : List NodeRef} : ends ≠ [] →
      a.arena.node r = .ok ⟨.accumulate, start.kept ++ ends.map Value.node, [k], false⟩ →
      Slot a k start ends (.node r)

variable {start : Value F} {ends : List NodeRef}

theorem Slot.keep (h : Slot a k start ends v) (kept : ∀ (r : NodeRef) (n : Node F),
    a.arena.node r = .ok n → n.kind = .accumulate → n.info = [k] → a'.arena.node r = .ok n) :
    Slot a' k start ends v := by
  cases h with
  | plain => exact .plain
  | merged some hr => exact .merged some (kept _ _ hr rfl rfl)

/-- A node that an output holds. -/
theorem Slot.low (h : Slot a k start ends v) (low : a.Low 0 start) : a.Low 3 v := by
  cases h with
  | plain => exact low.mono (Nat.zero_le 3)
  | merged some hr => exact low_node hr le_rfl

/-- An accumulation or a synonym that is held is an accumulation over loops. -/
theorem Slot.of_top (h : Slot a k start ends v) (low : a.Low 0 start) {r : NodeRef} {n : Node F}
    (eq : v = .node r) (hr : a.arena.node r = .ok n) (top : n.kind.tier = 3) :
    ends ≠ [] ∧ n = ⟨.accumulate, start.kept ++ ends.map Value.node, [k], false⟩ := by
  cases h with
  | plain =>
      obtain ⟨n', hr', le⟩ := low r eq
      cases hr.symm.trans hr'
      omega
  | merged some hr' =>
      cases eq
      exact ⟨some, Except.ok.inj (hr.symm.trans hr')⟩

/-- An output that names another: a number if the other is known, and a synonym
otherwise. -/
inductive Synonym (a : Sketch F) : Value F → Value F → Prop
  | known {x : F} : Synonym a (.const x) (.const x)
  | node {r s : NodeRef} : a.arena.node s = .ok ⟨.synonym, [.node r], [], false⟩ →
      Synonym a (.node s) (.node r)

/-- The outputs of an assembly, which were `start` before any loop and have had
the loops `ends` added to them since; `named` are the outputs that name others.
There are no accumulations and synonyms but those that the outputs hold. -/
structure Slots (start : Outputs F) (ends : Nat → List NodeRef) (named : List (Nat × Nat))
    (outputs : Outputs F) (a : Sketch F) : Prop where
  size_eq : outputs.size = start.size
  low {k : Nat} {v : Value F} : start[k]? = some v → a.Low 0 v
  slot {k : Nat} {s v : Value F} : k ∉ named.map Prod.fst → start[k]? = some s →
    outputs[k]? = some v → Slot a k s (ends k) v
  synonym {k source : Nat} {v : Value F} : (k, source) ∈ named → outputs[k]? = some v →
    ∃ w, outputs[source]? = some w ∧ Synonym a v w
  closed {k : Nat} {loop : NodeRef} : loop ∈ ends k →
    a.LoopEnd loop
  owned {i : Nat} {n : Node F} : a.arena.nodes[i]? = some n → n.kind.tier = 3 →
    ∃ k : Nat, outputs[k]? = some (.node (a.arena.handle i))
  tiered : a.arena.Tiered

namespace Slots

variable {start outputs : Outputs F} {ends : Nat → List NodeRef} {named : List (Nat × Nat)}

/-! ## What stays -/

/-- Nothing that an assembly records beside its outputs changes them. -/
theorem later (h : Slots start ends named outputs a) (le : a ≤ a') :
    Slots start ends named outputs a' where
  size_eq := h.size_eq
  low hv := (h.low hv).later le
  slot free hs hv := (h.slot free hs hv).keep fun r n hr kind _ =>
    le.keeps.node_eq hr (by rw [kind]; rfl)
  synonym mem hv := by
    obtain ⟨w, hw, synonym⟩ := h.synonym mem hv
    refine ⟨w, hw, ?_⟩
    cases synonym with
    | known => exact .known
    | node hs => exact .node (le.keeps.node_eq hs rfl)
  closed mem := (h.closed mem).keep le.keeps
  owned hn top := by
    obtain ⟨k, hk⟩ := h.owned (le.node hn top) top
    exact ⟨k, by rwa [handle, le.keeps.id_eq]⟩
  tiered := le.keeps.tiered h.tiered

/-! ## Adding loops -/

/-- A loop has been added to one output, and the accumulations of the others are
as they were. -/
theorem update (h : Slots start ends [] outputs a) {s : Value F} (hs : start[k]? = some s)
    (hloop : a.LoopEnd loop)
    (keeps : a.arena.Keeps (fun _ kind => kind.tier ≤ 2) a'.arena)
    (others : ∀ (r : NodeRef) (n : Node F), a.arena.node r = .ok n → n.kind = .accumulate →
      n.info ≠ [k] → a'.arena.node r = .ok n)
    (slot : Slot a' k s (ends k ++ [loop]) v)
    (owned : ∀ (i : Nat) (n : Node F), a'.arena.nodes[i]? = some n → n.kind.tier = 3 →
      v = .node (a'.arena.handle i) ∨
        (∃ n', a.arena.nodes[i]? = some n' ∧ n'.kind.tier = 3) ∧
          outputs[k]? ≠ some (.node (a.arena.handle i)))
    (size : k < outputs.size) :
    Slots start (Function.update ends k (ends k ++ [loop])) [] (outputs.setIfInBounds k v) a' where
  size_eq := (Array.size_setIfInBounds ..).trans h.size_eq
  low hv := (h.low hv).keep keeps
  slot {j s' w} free hs' hw := by
    by_cases here : j = k
    · subst here
      cases hs.symm.trans hs'
      rw [Array.getElem?_setIfInBounds_self_of_lt size] at hw
      cases hw
      rwa [Function.update_self]
    · rw [Array.getElem?_setIfInBounds_ne (Ne.symm here)] at hw
      rw [Function.update_of_ne here]
      refine (h.slot free hs' hw).keep fun r n hr kind info => others r n hr kind ?_
      rw [info]
      exact fun eq => here (List.singleton_inj.mp eq)
  synonym mem := absurd mem List.not_mem_nil
  closed {j r} mem := by
    refine Sketch.LoopEnd.keep (a := a) ?_ keeps
    by_cases here : j = k
    · subst here
      rw [Function.update_self] at mem
      rcases List.mem_append.mp mem with mem | mem
      · exact h.closed mem
      · exact List.mem_singleton.mp mem ▸ hloop
    · rw [Function.update_of_ne here] at mem
      exact h.closed mem
  owned {i n} hn top := by
    rcases owned i n hn top with rfl | ⟨⟨n', hn', top'⟩, other⟩
    · exact ⟨k, Array.getElem?_setIfInBounds_self_of_lt size⟩
    · obtain ⟨j, hj⟩ := h.owned hn' top'
      have ne : k ≠ j := fun eq => other (eq ▸ hj)
      refine ⟨j, ?_⟩
      rw [Array.getElem?_setIfInBounds_ne ne, hj, handle, handle, keeps.id_eq]
  tiered := keeps.tiered h.tiered

/-- An output that is no accumulation yet. -/
theorem ends_accumulate (h : Slots start ends [] outputs a) {s : Value F}
    (hs : start[k]? = some s) (hv : outputs[k]? = some s) (none : ends k = [])
    (hloop : a.LoopEnd loop) :
    Ends (do return .node (← Recording.push .accumulate (s.kept ++ [.node loop]) [k]) :
      Recording F (Value F)) a fun v a' =>
        a.arena.Keeps (fun _ kind => kind.tier ≤ 2) a'.arena ∧
          Slots start (Function.update ends k (ends k ++ [loop])) [] (outputs.setIfInBounds k v)
            a' := by
  have low : ∀ w ∈ s.kept ++ [.node loop], a.Low 3 w := by
    intro w hw
    rcases List.mem_append.mp hw with hw | hw
    · exact Value.of_mem_kept hw ▸ (h.low hs).mono (Nat.zero_le 3)
    · exact List.mem_singleton.mp hw ▸ hloop.low.mono (Nat.le_succ 2)
  refine Worlds.Ends.bind (ends_pushNew (by simp) low) ?_
  rintro r _ ⟨index, hr, rfl⟩
  have le := le_pushed (n := ⟨.accumulate, s.kept ++ [.node loop], [k], false⟩) (fits_of_low low)
  refine ends_pure ⟨keeps_of_le le, h.update hs hloop (keeps_of_le le)
    (fun r' n hr' _ _ => Keeps.node_eq le hr' trivial) ?_ (fun i n hn top => ?_)
    (Array.getElem?_eq_some_iff.mp hv).1⟩
  · rw [none]
    exact .merged (by simp) hr
  · rcases getElem?_push_cases hn with hn | ⟨rfl, -⟩
    · refine .inr ⟨⟨n, hn, top⟩, fun held => ?_⟩
      obtain ⟨n', hn', le'⟩ := h.low hs _ (Option.some.inj (hv.symm.trans held))
      cases (node_eq rfl hn).symm.trans hn'
      omega
    · exact .inl (congrArg Value.node ((eq_handle hr).trans (congrArg _ index)))

/-- An output that is an accumulation already. -/
theorem ends_extend (h : Slots start ends [] outputs a) {s : Value F} {r : NodeRef}
    (hs : start[k]? = some s) (hv : outputs[k]? = some (.node r))
    (hr : a.arena.node r = .ok ⟨.accumulate, s.kept ++ (ends k).map Value.node, [k], false⟩)
    (hloop : a.LoopEnd loop) :
    Ends (do
      Recording.reporting (Arena.append r [.node loop])
      return .node r : Recording F (Value F)) a fun v a' =>
        a.arena.Keeps (fun _ kind => kind.tier ≤ 2) a'.arena ∧
          Slots start (Function.update ends k (ends k ++ [loop])) [] (outputs.setIfInBounds k v)
            a' := by
  refine Worlds.Ends.bind ends_append ?_
  rintro _ _ ⟨-, rfl⟩
  obtain ⟨-, at_⟩ := node_eq_ok_iff.mp hr
  have fits : a.arena.Fits .accumulate [.node loop] :=
    fits_of_low fun w hw => List.mem_singleton.mp hw ▸ hloop.low.mono (Nat.le_succ 2)
  have keeps : a.arena.Keeps (fun i _ => i ≠ r.index) (a.arena.extended r [.node loop]) :=
    keeps_appended hr rfl fits
  have low : a.arena.Keeps (fun _ kind => kind.tier ≤ 2) (a.arena.extended r [.node loop]) := by
    refine keeps.of_nodes fun i n hn tier eq => ?_
    rw [eq, at_] at hn
    cases hn
    exact absurd tier (Nat.not_succ_le_self 2)
  have grown : (a.arena.extended r [.node loop]).node r =
      .ok ⟨.accumulate, s.kept ++ (ends k ++ [loop]).map Value.node, [k], false⟩ := by
    rw [List.map_append, ← List.append_assoc]
    exact node_appended_self hr
  refine ends_pure ⟨low, h.update hs hloop low (fun r' n hr' kind info => ?_) ?_
    (fun i n hn top => ?_) (Array.getElem?_eq_some_iff.mp hv).1⟩
  · refine keeps.node_eq hr' fun eq => info ?_
    rw [← eq, (node_eq_ok_iff.mp hr').2] at at_
    cases at_
    rfl
  · exact .merged (by simp) grown
  · by_cases here : i = r.index
    · rw [here]
      exact .inl (congrArg Value.node (eq_handle grown))
    · rw [node_extended, Option.map_eq_some_iff] at hn
      obtain ⟨n', hn', rfl⟩ := hn
      refine .inr ⟨⟨n', hn', top⟩, fun held => here ?_⟩
      cases hv.symm.trans held
      rfl

/-- A loop that is added to one output leaves the others as they are. -/
theorem ends_addLoop (h : Slots start ends [] outputs a) {s : Value F}
    (hs : start[k]? = some s) (hv : outputs[k]? = some v)
    (hloop : a.LoopEnd loop) :
    Ends (addLoop v loop k) a fun v' a' =>
      a.arena.Keeps (fun _ kind => kind.tier ≤ 2) a'.arena ∧
        Slots start (Function.update ends k (ends k ++ [loop])) [] (outputs.setIfInBounds k v')
          a' := by
  have slot := h.slot List.not_mem_nil hs hv
  generalize held : ends k = es at slot
  cases slot with
  | plain =>
      cases v with
      | const x =>
          simp only [addLoop, pure_bind]
          exact held ▸ h.ends_accumulate hs hv held hloop
      | node r =>
          simp only [addLoop, pure_bind]
          refine Worlds.Ends.bind ends_look ?_
          rintro n _ ⟨hn, rfl⟩
          obtain ⟨n', hn', tier⟩ := h.low hs r rfl
          cases hn.symm.trans hn'
          rw [if_neg (by rintro kind; rw [kind] at tier; exact absurd tier (by decide))]
          exact held ▸ h.ends_accumulate hs hv held hloop
  | merged some hr =>
      simp only [addLoop, pure_bind]
      refine Worlds.Ends.bind ends_look ?_
      rintro n _ ⟨hn, rfl⟩
      cases hn.symm.trans hr
      rw [if_pos rfl]
      subst held
      exact h.ends_extend hs hv hr hloop

theorem exists_start (h : Slots start ends named outputs a) (hv : outputs[k]? = some v) :
    ∃ s, start[k]? = some s :=
  ⟨_, Array.getElem?_eq_getElem (h.size_eq ▸ (Array.getElem?_eq_some_iff.mp hv).1)⟩

/-- Adding a loop to the outputs at some locations. -/
theorem ends_addLoopAt (h : Slots start ends [] outputs a) {locations : List Nat}
    (nodup : locations.Nodup) (hloop : a.LoopEnd loop) :
    Ends (addLoopAt outputs (some loop) locations) a fun outputs' a' =>
      a.arena.Keeps (fun _ kind => kind.tier ≤ 2) a'.arena ∧
        Slots start (fun k => ends k ++ if k ∈ locations then [loop] else []) [] outputs' a' := by
  rw [addLoopAt]
  refine ends_foldlM (fun done (outputs' : Outputs F) (a' : Sketch F) =>
    a.arena.Keeps (fun _ kind => kind.tier ≤ 2) a'.arena ∧
      Slots start (fun k => ends k ++ if k ∈ done then [loop] else []) [] outputs' a') ?_ ?_
  · exact ⟨.refl _ _, by simpa using h⟩
  · rintro done k rest outputs' a' split ⟨keeps, h'⟩
    have fresh : k ∉ done := by
      rw [split] at nodup
      exact fun mem => (List.nodup_append.mp nodup).2.2 k mem k (List.mem_cons_self ..) rfl
    refine ends_present_bind fun v hv => ?_
    obtain ⟨s, hs⟩ := h'.exists_start hv
    refine Worlds.Ends.bind (h'.ends_addLoop hs hv (hloop.keep keeps)) ?_
    rintro v' a'' ⟨keeps', h''⟩
    refine ends_pure ⟨keeps.trans keeps', ?_⟩
    convert h'' using 1
    funext j
    by_cases here : j = k
    · subst here
      simp [fresh]
    · simp [here]

/-! ## Naming outputs -/

/-- An output names another. -/
theorem name (h : Slots start ends named outputs a) (le : a.arena ≤ a'.arena) {source : Nat}
    {w : Value F} (size : k < start.size) (fresh : k ∉ named.map Prod.fst) (none : ends k = [])
    (sources : ∀ e ∈ named, e.2 ≠ k) (ne : source ≠ k) (hw : outputs[source]? = some w)
    (synonym : Synonym a' v w)
    (owned : ∀ (i : Nat) (n : Node F), a'.arena.nodes[i]? = some n →
      a.arena.nodes[i]? = some n ∨ v = .node (a'.arena.handle i)) :
    Slots start ends (named ++ [(k, source)]) (outputs.setIfInBounds k v) a' where
  size_eq := (Array.size_setIfInBounds ..).trans h.size_eq
  low hv := (h.low hv).keep le
  slot {j s u} free hs hu := by
    rw [List.map_append, List.mem_append, not_or] at free
    have other : k ≠ j := fun eq => free.2 (by simp [eq])
    rw [Array.getElem?_setIfInBounds_ne other] at hu
    exact (h.slot free.1 hs hu).keep fun r n hr _ _ => Keeps.node_eq le hr trivial
  synonym {j source' u} mem hu := by
    rcases List.mem_append.mp mem with mem | mem
    · have other : k ≠ j := fun eq => fresh (eq ▸ List.mem_map_of_mem (f := Prod.fst) mem)
      rw [Array.getElem?_setIfInBounds_ne other] at hu
      obtain ⟨x, hx, old⟩ := h.synonym mem hu
      refine ⟨x, ?_, ?_⟩
      · rwa [Array.getElem?_setIfInBounds_ne (Ne.symm (sources _ mem))]
      · cases old with
        | known => exact .known
        | node hs => exact .node (Keeps.node_eq le hs trivial)
    · cases List.mem_singleton.mp mem
      rw [Array.getElem?_setIfInBounds_self_of_lt (h.size_eq ▸ size)] at hu
      cases hu
      exact ⟨w, by rwa [Array.getElem?_setIfInBounds_ne (Ne.symm ne)], synonym⟩
  closed mem := (h.closed mem).keep le
  owned {i n} hn top := by
    rcases owned i n hn with hn | rfl
    · obtain ⟨j, hj⟩ := h.owned hn top
      -- the output at `k` has had no loop added to it, so it is no accumulation
      have other : k ≠ j := by
        rintro rfl
        obtain ⟨s, hs⟩ := h.exists_start hj
        exact ((h.slot fresh hs hj).of_top (h.low hs) rfl (node_eq rfl hn) top).1 none
      exact ⟨j, by rw [Array.getElem?_setIfInBounds_ne other, hj, handle, handle, Keeps.id_eq le]⟩
    · exact ⟨k, Array.getElem?_setIfInBounds_self_of_lt (h.size_eq ▸ size)⟩
  tiered := Keeps.tiered le h.tiered

/-- Outputs without loops name outputs that name no others. -/
theorem ends_nameSynonyms (h : Slots start ends [] outputs a) {synonyms : List (Nat × Nat)}
    (nodup : (synonyms.map Prod.fst).Nodup) (none : ∀ k ∈ synonyms.map Prod.fst, ends k = [])
    (sources : ∀ e ∈ synonyms, e.1 < start.size ∧ e.2 ∉ synonyms.map Prod.fst) :
    Ends (Assembly.nameSynonyms synonyms outputs) a fun outputs' a' =>
      a.arena ≤ a'.arena ∧ Slots start ends synonyms outputs' a' := by
  rw [Assembly.nameSynonyms]
  refine ends_foldlM (fun done (outputs' : Outputs F) (a' : Sketch F) =>
    a.arena ≤ a'.arena ∧ Slots start ends done outputs' a') ⟨le_rfl, h⟩ ?_
  rintro done ⟨k, source⟩ rest outputs' a' split ⟨le, h'⟩
  have firsts := congrArg (List.map Prod.fst) split
  rw [List.map_append, List.map_cons] at firsts
  have target : k ∈ synonyms.map Prod.fst := firsts ▸ by simp
  have fresh : k ∉ done.map Prod.fst := by
    rw [firsts] at nodup
    exact fun mem => (List.nodup_append.mp nodup).2.2 k mem k (List.mem_cons_self ..) rfl
  obtain ⟨size, free⟩ := sources (k, source) (by simp [split])
  have ne : source ≠ k := fun eq => free (eq ▸ target)
  have apart : ∀ e ∈ done, e.2 ≠ k := by
    rintro e he rfl
    exact (sources e (by simp [split, he])).2 target
  refine ends_present_bind fun w hw => ?_
  cases w with
  | const x =>
      exact ends_pure ⟨le, h'.name le_rfl size fresh (none k target) apart ne hw .known
        fun i n hn => .inl hn⟩
  | node r =>
      obtain ⟨s, hs⟩ := h'.exists_start hw
      have before : source ∉ done.map Prod.fst :=
        fun mem => free (firsts ▸ by simp [List.mem_map.mp mem])
      have low : ∀ u ∈ [Value.node r], a'.Low Kind.synonym.tier u := fun u hu =>
        List.mem_singleton.mp hu ▸ (h'.slot before hs hw).low (h'.low hs)
      refine Worlds.Ends.bind (ends_pushNew (by simp) low) ?_
      rintro t _ ⟨index, ht, rfl⟩
      have le' := le_pushed (n := ⟨.synonym, [.node r], [], false⟩) (fits_of_low low)
      refine ends_pure ⟨le.trans le', h'.name le' size fresh (none k target) apart ne hw (.node ht)
        fun i n hn => ?_⟩
      rcases getElem?_push_cases hn with hn | ⟨rfl, -⟩
      · exact .inl hn
      · exact .inr (congrArg Value.node ((eq_handle ht).trans (congrArg _ index)))

end Slots

/-! ## Loops -/

namespace Closing

variable {cs : List Closing} {c : Closing} {P : Nat → Prop}

omit [Scalar F] in
theorem ends_append (cs : List Closing) (c : Closing) (k : Nat) : Closing.ends (cs ++ [c]) k =
    Closing.ends cs k ++ if k ∈ c.locations then c.loopEnd?.toList else [] := by
  rw [Closing.ends, List.filter_append, List.filterMap_append, Closing.ends]
  by_cases mem : k ∈ c.locations
  · cases h : c.loopEnd? <;> simp [mem, h]
  · simp [mem]

omit [Scalar F] in
/-- Only loops that were closed are added. -/
theorem ends_sublist (cs : List Closing) (k : Nat) :
    (Closing.ends cs k).Sublist (cs.filterMap Closing.loopEnd?) :=
  List.filter_sublist.filterMap _

/-- Loops that were closed one after the other: their ends are distinct nodes of
the arena. -/
structure Closed (cs : List Closing) (a : Sketch F) (P : Nat → Prop) : Prop where
  node {c : Closing} {loop : NodeRef} : c ∈ cs → c.loopEnd? = some loop → a.LoopEnd loop
  nodup : (cs.filterMap Closing.loopEnd?).Nodup
  place {c : Closing} {k : Nat} : c ∈ cs → k ∈ c.locations → P k

omit [Scalar F] in
theorem closed_nil : Closed [] a P := ⟨by simp, List.nodup_nil, by simp⟩

omit [Scalar F] in
theorem Closed.keep {Q : Nat → Kind → Prop} (h : Closed cs a P)
    (keeps : a.arena.Keeps Q a'.arena) : Closed cs a' P :=
  ⟨fun hc hloop => (h.node hc hloop).keep keeps, h.nodup, h.place⟩

omit [Scalar F] in
/-- A loop that was closed after the others. -/
theorem Closed.append (h : Closed cs a P) (hc : c.Sketched a a' P) (le : a ≤ a') :
    Closed (cs ++ [c]) a' P where
  node hd hloop := by
    rcases List.mem_append.mp hd with hd | hd
    · exact (h.node hd hloop).keep le.keeps
    · cases List.mem_singleton.mp hd
      exact (hc.fresh hloop).2
  nodup := by
    rw [List.filterMap_append, List.nodup_append]
    refine ⟨h.nodup, ?_, ?_⟩
    · cases hloop : c.loopEnd? <;> simp [hloop]
    · rintro r hr s hs rfl
      obtain ⟨d, hd, hloop⟩ := List.mem_filterMap.mp hr
      obtain ⟨_, hd', hloop'⟩ := List.mem_filterMap.mp hs
      cases List.mem_singleton.mp hd'
      obtain ⟨n, hn, -⟩ := h.node hd hloop
      have before := (Array.getElem?_eq_some_iff.mp (node_eq_ok_iff.mp hn).2).1
      exact Nat.not_lt.mpr (hc.fresh hloop').1 before
  place hd hk := by
    rcases List.mem_append.mp hd with hd | hd
    · exact h.place hd hk
    · cases List.mem_singleton.mp hd
      exact hc.place hk

omit [Scalar F] in
theorem Closed.ends_eq_nil (h : Closed cs a P) {k : Nat} (free : ¬P k) : Closing.ends cs k = [] := by
  rw [Closing.ends, List.filter_eq_nil_iff.mpr, List.filterMap_nil]
  exact fun c hc mem => free (h.place hc (of_decide_eq_true mem))

end Closing

omit [Scalar F] in
theorem Assembler.Mirrors.lt_size {m : Model F} {p : Assembler} {source : Nat}
    (h : p.Mirrors k source) : k < p.size m := by
  cases p with
  | hessian elements =>
      obtain ⟨e, -, here, -⟩ := h
      exact (List.getElem?_eq_some_iff.mp here).1
  | _ => exact h.elim

/-- What is named by another names none. -/
theorem Assembler.Mirrors.not_mirrors {p : Assembler} {source other : Nat}
    (h : p.Mirrors k source) : ¬p.Mirrors source other := by
  cases p with
  | hessian elements =>
      obtain ⟨e, lt, -, here⟩ := h
      rintro ⟨e', lt', here', -⟩
      cases here.symm.trans here'
      exact Nat.lt_asymm lt lt'
  | _ => exact h.elim

namespace Assembly

variable {asm : Assembly F} {m : Model F} {p : Assembler} {stages : Stages F}
  {start outputs : Outputs F} {cs : List Closing} {c : Closing} {course : Course F}

theorem ends_addClosing (h : Slots start (Closing.ends cs) [] outputs a)
    (nodup : c.locations.Nodup)
    (closed : ∀ loop : NodeRef, c.loopEnd? = some loop → a.LoopEnd loop) :
    Ends (addClosing outputs c) a fun outputs' a' =>
      a.arena.Keeps (fun _ kind => kind.tier ≤ 2) a'.arena ∧
        Slots start (Closing.ends (cs ++ [c])) [] outputs' a' := by
  have ends : Closing.ends (cs ++ [c]) = fun k =>
      Closing.ends cs k ++ if k ∈ c.locations then c.loopEnd?.toList else [] :=
    funext (Closing.ends_append cs c)
  rw [addClosing, ends]
  cases hloop : c.loopEnd? with
  | none => exact ends_pure ⟨.refl _ _, by simpa using h⟩
  | some loop => exact h.ends_addLoopAt nodup (closed loop hloop)

/-- Outputs before any loop, in an arena without accumulations and synonyms. -/
theorem slots_start {P : Nat → Prop} {size : Nat} (h : outputs.Sketched a size P)
    (below : ∀ (i : Nat) (n : Node F), a.arena.nodes[i]? = some n → n.kind.tier ≠ 3)
    (tiered : a.arena.Tiered) : Slots outputs (Closing.ends []) [] outputs a where
  size_eq := rfl
  low := h.low
  slot _ hs hv := by
    cases hs.symm.trans hv
    exact .plain
  synonym mem := absurd mem List.not_mem_nil
  closed mem := absurd mem List.not_mem_nil
  owned hn top := absurd top (below _ _ hn)
  tiered := tiered

/-- An output that another names is none that names others. -/
theorem Stages.Sketched.source_free (h : stages.Sketched asm m p) {e : Nat × Nat}
    (he : e ∈ stages.synonyms) : e.2 ∉ stages.synonyms.map Prod.fst := by
  intro mem
  obtain ⟨e', he', eq⟩ := List.mem_map.mp mem
  exact (h.mirrors.mp he).not_mirrors (eq ▸ h.mirrors.mp he')

/-- Only mirrored outputs name others. -/
theorem Stages.Sketched.not_named (h : stages.Sketched asm m p) {k : Nat}
    (none : ∀ source, ¬p.Mirrors k source) : k ∉ stages.synonyms.map Prod.fst := by
  intro mem
  obtain ⟨e, he, rfl⟩ := List.mem_map.mp mem
  exact none e.2 (h.mirrors.mp he)

/-- A loop of the model after others. -/
theorem Stages.Sketched.ends_loop (h : stages.Sketched asm m p) {l : Loop F} (hl : l ∈ m.loops)
    (sketched : asm.Sketched m a) (closed : Closing.Closed cs a (stages.Own m p))
    (slots : Slots start (Closing.ends cs) [] outputs a) :
    Ends (stages.loop (outputs, cs) l) a fun s a' =>
      asm.Sketched m a' ∧ Closing.Closed s.2 a' (stages.Own m p) ∧ s.2.length = cs.length + 1 ∧
        Slots start (Closing.ends s.2) [] s.1 a' := by
  rw [Stages.loop]
  refine Worlds.Ends.bind (h.close hl sketched) ?_
  rintro c a₁ ⟨le, hc⟩
  have closed := closed.append hc le
  refine Worlds.Ends.bind (ends_addClosing (slots.later le) hc.nodup fun loop hloop =>
    (hc.fresh hloop).2) ?_
  rintro outputs' a₂ ⟨keeps, slots'⟩
  exact ends_pure ⟨(sketched.later le).keep keeps, closed.keep keeps, by simp, slots'⟩

/-- What the stages of an assembly leave: loops that were closed one for each loop
of the model, and outputs to which they have been added. -/
structure Finished (stages : Stages F) (m : Model F) (p : Assembler) (outputs : Outputs F)
    (course : Course F) (a : Sketch F) : Prop where
  length : course.closings.length = m.loops.length
  closed : Closing.Closed course.closings a (stages.Own m p)
  before : course.before.Sketched a (p.size m) (stages.Own m p)
  slots : Slots course.before course.ends stages.synonyms outputs a

theorem Finished.exists_slot (h : Finished stages m p outputs course a) {k : Nat} {v : Value F}
    (free : k ∉ stages.synonyms.map Prod.fst) (hv : outputs[k]? = some v) :
    ∃ s, course.before[k]? = some s ∧ Slot a k s (course.ends k) v := by
  obtain ⟨s, hs⟩ := h.slots.exists_start hv
  exact ⟨s, hs, h.slots.slot free hs hv⟩

theorem Stages.Sketched.ends_run (h : stages.Sketched asm m p) (sketched : asm.Sketched m a)
    (below : ∀ (i : Nat) (n : Node F), a.arena.nodes[i]? = some n → n.kind.tier ≠ 3)
    (tiered : a.arena.Tiered) : Ends (stages.run m.loops) a fun r a' =>
      Finished stages m p r.1.toArray r.2 a' := by
  rw [Stages.run]
  refine Worlds.Ends.bind (h.start sketched) ?_
  rintro before a₁ ⟨le₁, hbefore⟩
  have first := slots_start hbefore (fun i n hn top => below i n (le₁.node hn top) top)
    (le₁.keeps.tiered tiered)
  refine Worlds.Ends.bind (ends_foldlM (fun done (s : Outputs F × List Closing) a' =>
    asm.Sketched m a' ∧ Closing.Closed s.2 a' (stages.Own m p) ∧ s.2.length = done.length ∧
      Slots before (Closing.ends s.2) [] s.1 a')
    ⟨sketched.later le₁, Closing.closed_nil, rfl, first⟩ ?_) ?_
  · rintro done l rest ⟨outputs, cs⟩ a' split ⟨sketched', closed, length, slots⟩
    have hl : l ∈ m.loops := by simp [split]
    refine (h.ends_loop hl sketched' closed slots).mono ?_
    rintro s a'' ⟨sketched'', closed', length', slots'⟩
    exact ⟨sketched'', closed', by simpa [length] using length', slots'⟩
  · rintro ⟨outputs, cs⟩ a₂ ⟨-, closed, length, slots⟩
    refine Worlds.Ends.bind (slots.ends_nameSynonyms h.nodup
      (fun k mem => closed.ends_eq_nil fun own => own.2 mem) fun e he => ⟨?_, h.source_free he⟩) ?_
    · exact hbefore.size_eq.symm ▸ (h.mirrors.mp he).lt_size
    · rintro outputs' a₃ ⟨le, slots'⟩
      exact ends_pure ⟨length, closed.keep le,
        ⟨hbefore.size_eq, slots'.low, hbefore.zero⟩, slots'⟩

end Assembly

end LoopDiff
