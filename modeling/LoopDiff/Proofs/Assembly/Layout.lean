import LoopDiff.Assembly.Hessian
import LoopDiff.Proofs.Maps
import LoopDiff.Proofs.Yields

/-!
# LoopDiff.Proofs.Assembly.Layout

Which elements of a Hessian are computed, and which name others.

Each requested element is computed at its own location, on the lower side of
the diagonal (`Layout.IsOf.computed`), unless its transpose is requested as
well; then the element above the diagonal names the one below it
(`Layout.IsOf.synonym`).  So every position has one of two roles
(`Layout.Partitions`).
-/

namespace LoopDiff

open Std (TreeMap TreeSet)

namespace Layout

/-- The layout of some elements. -/
structure IsOf (layout : Layout) (elements : List (Nat × Nat)) : Prop where
  computed {e : Nat × Nat} {k : Nat} : layout.computed[e]? = some k ↔
    e.2 ≤ e.1 ∧ elements[k]? = some e ∨
      e.2 < e.1 ∧ elements[k]? = some e.swap ∧ e ∉ elements
  synonym {k source : Nat} : (k, source) ∈ layout.synonyms ↔
    ∃ e, e.1 < e.2 ∧ elements[k]? = some e ∧ elements[source]? = some e.swap

section

variable {layout : Layout} {elements : List (Nat × Nat)}

/-- What is computed is on or below the diagonal, at a location of an
element. -/
theorem IsOf.lower (h : layout.IsOf elements) (e : Nat × Nat) (k : Nat)
    (hk : layout.computed[e]? = some k) : e.2 ≤ e.1 ∧ k < elements.length := by
  rcases h.computed.mp hk with ⟨le, here⟩ | ⟨lt, here, -⟩
  · exact ⟨le, (List.getElem?_eq_some_iff.mp here).1⟩
  · exact ⟨Nat.le_of_lt lt, (List.getElem?_eq_some_iff.mp here).1⟩

/-- What a synonym names is there and no synonym itself. -/
theorem IsOf.source (h : layout.IsOf elements) {e : Nat × Nat} (he : e ∈ layout.synonyms) :
    e.2 < elements.length ∧ e.2 ∉ layout.synonyms.map Prod.fst := by
  obtain ⟨k, source⟩ := e
  obtain ⟨e, lt, -, here⟩ := h.synonym.mp he
  refine ⟨(List.getElem?_eq_some_iff.mp here).1, fun mem => ?_⟩
  obtain ⟨⟨_, source'⟩, mem', rfl⟩ := List.mem_map.mp mem
  obtain ⟨e', lt', here', -⟩ := h.synonym.mp mem'
  cases here.symm.trans here'
  exact Nat.lt_asymm lt lt'

/-- Where an element is computed there is no synonym. -/
theorem IsOf.not_synonym (h : layout.IsOf elements) {e : Nat × Nat} {k : Nat}
    (hk : layout.computed[e]? = some k) : k ∉ layout.synonyms.map Prod.fst := by
  intro mem
  obtain ⟨⟨_, source⟩, mem', rfl⟩ := List.mem_map.mp mem
  obtain ⟨e', lt, here, transpose⟩ := h.synonym.mp mem'
  rcases h.computed.mp hk with ⟨le, here'⟩ | ⟨-, here', absent⟩ <;> cases here.symm.trans here'
  · exact Nat.not_lt.mpr le lt
  · exact absent (List.mem_of_getElem? transpose)

end

/-! ## Elements above the diagonal -/

/-- The layout of elements below and above the diagonal. -/
def ofParts (lower : PairMap Nat) (upper : List ((Nat × Nat) × Nat)) : Layout :=
  upper.foldr (fun (e, k) layout => layout.addUpper e.1 e.2 k) ⟨lower, []⟩

variable {upper : List ((Nat × Nat) × Nat)}

/-- An element above the diagonal is a synonym of its transpose, and is
computed in its place if there is none. -/
theorem ofParts_spec (lower : PairMap Nat) (nodup : (upper.map Prod.fst).Nodup) :
    (∀ (e : Nat × Nat) (k : Nat), (ofParts lower upper).computed[e]? = some k ↔
      lower[e]? = some k ∨ lower[e]? = none ∧ (e.swap, k) ∈ upper) ∧
    ∀ k source : Nat, (k, source) ∈ (ofParts lower upper).synonyms ↔
      ∃ e : Nat × Nat, (e, k) ∈ upper ∧ lower[e.swap]? = some source := by
  induction upper with
  | nil => exact ⟨fun e k => by simp [ofParts], fun k source => by simp [ofParts]⟩
  | cons u upper ih =>
      obtain ⟨⟨row, col⟩, location⟩ := u
      rw [List.map_cons, List.nodup_cons] at nodup
      obtain ⟨computed, synonyms⟩ := ih nodup.2
      have fresh (k : Nat) : ((row, col), k) ∉ upper := fun mem =>
        nodup.1 (List.mem_map.mpr ⟨_, mem, rfl⟩)
      have step : ofParts lower (((row, col), location) :: upper) =
          (ofParts lower upper).addUpper row col location := rfl
      have transpose : (ofParts lower upper).computed[(col, row)]? = lower[(col, row)]? := by
        refine Option.ext fun k => ?_
        rw [computed]
        exact or_iff_left fun h => fresh k h.2
      rw [step, addUpper, transpose]
      cases below : lower[(col, row)]? with
      | some source =>
          refine ⟨fun e k => ?_, fun k source' => ?_⟩
          · rw [computed, List.mem_cons]
            refine or_congr_right (and_congr_right fun absent => (or_iff_right fun eq => ?_).symm)
            rw [← Prod.swap_swap e, (Prod.mk.inj eq).1] at absent
            cases below.symm.trans absent
          · rw [List.mem_cons, synonyms]
            constructor
            · rintro (eq | ⟨e, mem, h⟩)
              · cases eq
                exact ⟨(row, col), List.mem_cons_self .., below⟩
              · exact ⟨e, List.mem_cons_of_mem _ mem, h⟩
            · rintro ⟨e, mem, h⟩
              rcases List.mem_cons.mp mem with eq | mem
              · cases eq
                cases below.symm.trans h
                exact .inl rfl
              · exact .inr ⟨e, mem, h⟩
      | none =>
          refine ⟨fun e k => ?_, fun k source => ?_⟩
          · rw [TreeMap.getElem?_insert]
            split
            case isTrue eq =>
                cases Std.LawfulEqOrd.eq_of_compare eq
                simp [below, fresh, eq_comm]
            case isFalse ne =>
                rw [computed, List.mem_cons]
                refine or_congr_right (and_congr_right fun _ => (or_iff_right fun eq => ne ?_).symm)
                rw [← Prod.swap_swap e, (Prod.mk.inj eq).1]
                exact Std.ReflCmp.compare_self
          · rw [synonyms]
            refine exists_congr fun e =>
              ⟨fun h => ⟨List.mem_cons_of_mem _ h.1, h.2⟩, fun h => ⟨?_, h.2⟩⟩
            refine (List.mem_cons.mp h.1).resolve_left fun eq => ?_
            cases eq
            cases below.symm.trans h.2

/-- No element above the diagonal is a synonym twice. -/
theorem synonyms_sublist (lower : PairMap Nat) :
    ((ofParts lower upper).synonyms.map Prod.fst).Sublist (upper.map Prod.snd) := by
  induction upper with
  | nil => exact List.nil_sublist _
  | cons u upper ih =>
      have step : ofParts lower (u :: upper) =
          (ofParts lower upper).addUpper u.1.1 u.1.2 u.2 := rfl
      rw [step, addUpper, List.map_cons]
      cases (ofParts lower upper).computed[(u.1.2, u.1.1)]? with
      | some source => exact ih.cons_cons u.2
      | none => exact ih.cons u.2

/-! ## All elements -/

variable {elements : List (Nat × Nat)}

theorem nodup_fst_filter (nodup : elements.Nodup) (p : (Nat × Nat) × Nat → Bool) :
    ((elements.zipIdx.filter p).map Prod.fst).Nodup := by
  refine (List.filter_sublist.map Prod.fst).nodup ?_
  rwa [List.zipIdx_map_fst]

/-- Elements without a repeat have a layout. -/
theorem yields_ofElements (nodup : elements.Nodup) :
    Yields (ofElements elements) () fun layout _ => layout.IsOf elements := by
  have distinct : firstRepeat? elements ∅ = none :=
    firstRepeat?_eq_none_iff.mpr ⟨nodup, by simp⟩
  rw [ofElements, distinct]
  refine yields_pure ?_
  obtain ⟨computed, synonyms⟩ := ofParts_spec ((elements.zipIdx.filter fun (e, _) =>
    e.2 ≤ e.1).foldl (fun computed (e, k) => computed.insert e k) ∅)
    (nodup_fst_filter nodup fun (e, _) => e.1 < e.2)
  have below {e : Nat × Nat} {k : Nat} : ((elements.zipIdx.filter fun (e, _) => e.2 ≤ e.1).foldl
      (fun (computed : PairMap Nat) (e, k) => computed.insert e k) ∅)[e]? = some k ↔
        elements[k]? = some e ∧ e.2 ≤ e.1 := by
    rw [getElem?_foldl_insert (nodup_fst_filter nodup _) fun _ _ => TreeMap.getElem?_emptyc]
    simp [List.mem_zipIdx_iff_getElem?]
  have above {e : Nat × Nat} {k : Nat} : (e, k) ∈ elements.zipIdx.filter (fun (e, _) => e.1 < e.2) ↔
      elements[k]? = some e ∧ e.1 < e.2 := by
    simp [List.mem_zipIdx_iff_getElem?]
  refine ⟨fun {e k} => ?_, fun {k source} => ?_⟩
  · refine (computed e k).trans (or_congr (below.trans and_comm) ?_)
    rw [above, Option.eq_none_iff_forall_ne_some]
    constructor
    · rintro ⟨absent, h, lt⟩
      refine ⟨lt, h, fun mem => ?_⟩
      obtain ⟨k', hk'⟩ := List.mem_iff_getElem?.mp mem
      exact absent k' (below.mpr ⟨hk', Nat.le_of_lt lt⟩)
    · rintro ⟨lt, h, free⟩
      exact ⟨fun k' hk' => free (List.mem_of_getElem? (below.mp hk').1), h, lt⟩
  · refine (synonyms k source).trans (exists_congr fun e => ?_)
    rw [above, below]
    exact ⟨fun h => ⟨h.1.2, h.1.1, h.2.1⟩, fun h => ⟨⟨h.2.1, h.1⟩, h.2.2, Nat.le_of_lt h.1⟩⟩

/-- What has a layout is repeated nowhere, and nothing is a synonym twice. -/
theorem nodup_of_ofElements {layout : Layout} (h : ofElements elements = .ok layout) :
    elements.Nodup ∧ (layout.synonyms.map Prod.fst).Nodup := by
  rw [ofElements] at h
  split at h
  case h_1 => cases h
  case h_2 distinct =>
      cases h
      refine ⟨(firstRepeat?_eq_none_iff.mp distinct).1, (synonyms_sublist _).nodup ?_⟩
      refine (List.filter_sublist.map Prod.snd).nodup ?_
      rw [List.zipIdx_map_snd]
      exact List.nodup_range' ..

/-- The failure of a layout names an element that is requested twice. -/
theorem ofElements_eq_error {f : Failure} (h : ofElements elements = .error f) :
    ∃ r c : Nat, 1 < elements.count (r, c) ∧ f = .error (.repeatedHessianElement r c) := by
  rw [ofElements] at h
  split at h
  case h_1 e repeated =>
      cases h
      exact ⟨e.1, e.2, (one_lt_count_of_firstRepeat? repeated).resolve_right (by simp), rfl⟩
  case h_2 => cases h

/-- There is a layout unless an element is requested twice. -/
theorem exists_ofElements_eq_error : (∃ r c : Nat,
    ofElements elements = .error (.error (.repeatedHessianElement r c))) ↔
      ∃ e, 1 < elements.count e := by
  constructor
  · rintro ⟨r, c, h⟩
    obtain ⟨r', c', repeated, -⟩ := ofElements_eq_error h
    exact ⟨_, repeated⟩
  · rintro ⟨e, repeated⟩
    cases h : ofElements elements with
    | error f =>
        obtain ⟨r, c, -, rfl⟩ := ofElements_eq_error h
        exact ⟨r, c, rfl⟩
    | ok layout =>
        have once := List.nodup_iff_count_le_one.mp (nodup_of_ofElements h).1 e
        exact absurd repeated (Nat.not_lt.mpr once)

/-! ## Roles of positions -/

/-- The element on or below the diagonal that stands for an element and its
transpose. -/
def representative (e : Nat × Nat) : Nat × Nat := (max e.1 e.2, min e.1 e.2)

theorem representative_of_le {e : Nat × Nat} (h : e.2 ≤ e.1) : representative e = e := by
  simp [representative, h]

theorem representative_of_lt {e : Nat × Nat} (h : e.1 < e.2) : representative e = e.swap := by
  rw [representative, max_eq_right h.le, min_eq_left h.le]
  rfl

/-- The positions of some elements, divided into those where an element is computed
and those that name such a position. -/
structure Partitions (layout : Layout) (elements : List (Nat × Nat)) : Prop where
  /-- At a position either its own element is computed, or it is a synonym. -/
  role {k : Nat} {e : Nat × Nat} : elements[k]? = some e →
    Xor (layout.computed[representative e]? = some k) (∃ source, (k, source) ∈ layout.synonyms)
  /-- Nothing is computed but what is on or below the diagonal, at the position of
  the element or of its transpose. -/
  computed {e : Nat × Nat} {k : Nat} : layout.computed[e]? = some k →
    e.2 ≤ e.1 ∧ ∃ e', elements[k]? = some e' ∧ representative e' = e
  /-- A synonym is above the diagonal and names the position at which its transpose is
  requested and computed. -/
  synonym {k source : Nat} : (k, source) ∈ layout.synonyms → ∃ e : Nat × Nat, e.1 < e.2 ∧
    elements[k]? = some e ∧ elements[source]? = some e.swap ∧
    layout.computed[representative e]? = some source
  /-- It is listed once. -/
  once : (layout.synonyms.map Prod.fst).Nodup

theorem IsOf.partitions {layout : Layout} (h : layout.IsOf elements)
    (once : (layout.synonyms.map Prod.fst).Nodup) : layout.Partitions elements where
  role {k e} here := by
    have free (hk : layout.computed[representative e]? = some k) :
        ¬∃ source, (k, source) ∈ layout.synonyms := fun ⟨_, mem⟩ =>
      h.not_synonym hk (List.mem_map_of_mem (f := Prod.fst) mem)
    by_cases le : e.2 ≤ e.1
    case pos =>
        have hk : layout.computed[representative e]? = some k := by
          rw [representative_of_le le]
          exact h.computed.mpr (.inl ⟨le, here⟩)
        exact .inl ⟨hk, free hk⟩
    case neg =>
        have lt := Nat.lt_of_not_le le
        by_cases mirrored : e.swap ∈ elements
        case pos =>
            obtain ⟨source, there⟩ := List.mem_iff_getElem?.mp mirrored
            have mem := h.synonym.mpr ⟨e, lt, here, there⟩
            exact .inr ⟨⟨source, mem⟩, fun hk => free hk ⟨source, mem⟩⟩
        case neg =>
            have hk : layout.computed[representative e]? = some k := by
              rw [representative_of_lt lt]
              exact h.computed.mpr (.inr ⟨lt, here, mirrored⟩)
            exact .inl ⟨hk, free hk⟩
  computed {e k} hk := by
    rcases h.computed.mp hk with ⟨le, here⟩ | ⟨lt, here, -⟩
    · exact ⟨le, e, here, representative_of_le le⟩
    · exact ⟨lt.le, e.swap, here, representative_of_lt (e := e.swap) lt⟩
  synonym mem := by
    obtain ⟨e, lt, here, there⟩ := h.synonym.mp mem
    refine ⟨e, lt, here, there, ?_⟩
    rw [representative_of_lt lt]
    exact h.computed.mpr (.inl ⟨lt.le, there⟩)
  once := once

/-- A layout divides the positions of its elements. -/
theorem partitions_of_ofElements {layout : Layout} (h : ofElements elements = .ok layout) :
    layout.Partitions elements := by
  obtain ⟨nodup, once⟩ := nodup_of_ofElements h
  obtain ⟨_, h', isOf⟩ := exists_ok_of_yields (yields_ofElements nodup)
  cases h.symm.trans h'
  exact isOf.partitions once

end Layout

end LoopDiff
