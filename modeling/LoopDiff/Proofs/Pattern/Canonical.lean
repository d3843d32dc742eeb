import LoopDiff.Proofs.Pattern

/-!
# LoopDiff.Proofs.Pattern.Canonical

Which pattern is found behind a table.

Detection guesses the slope of a line from the first two entries.  If any line
goes through all entries, the guess is its slope, since the truncated quotient
of an exact multiple is exact (`through?_of_line`).  So a table becomes a
constant if its indices agree, a line if one goes through all entries, whichever
iterations these are at, and is kept otherwise (`detect?_cases`).

The table without entries is kept, although any line goes through all entries
that it has (`detect?_empty`).

What is found only depends on the table, so lists of indices can be compared by
their patterns.
-/

namespace LoopDiff

open Std (TreeMap)

theorem Word.eq_of_checked {z w : Int} (h : checked z = some w) : w = z := by
  rw [checked, Option.ite_none_right_eq_some] at h
  exact (Option.some.inj h.2).symm

namespace Pattern

/-! ## Lines -/

/-- All indices of a table are the same. -/
def Uniform (entries : TreeMap Nat Nat) : Prop :=
  ∀ i j v w : Nat, entries[i]? = some v → entries[j]? = some w → v = w

/-- The line with this slope and offset goes through all entries of a table. -/
def OnLine (entries : TreeMap Nat Nat) (slope offset : Int) : Prop :=
  ∀ i v : Nat, entries[i]? = some v → slope * i + offset = v

theorem eq_of_linearAt {slope offset iteration v : Int}
    (h : linearAt slope offset iteration = some v) : v = slope * iteration + offset := by
  obtain ⟨product, hproduct, h⟩ := Option.bind_eq_some_iff.mp h
  rw [Word.eq_of_checked h, Word.eq_of_checked hproduct]

/-- A line fits if it goes through all entries. -/
theorem fits?_iff {slope offset : Int} {entries : List (Int × Int)} {b : Bool}
    (h : fits? slope offset entries = some b) :
    b = true ↔ ∀ e ∈ entries, slope * e.1 + offset = e.2 := by
  induction entries with
  | nil =>
      cases h
      simp
  | cons e rest ih =>
      obtain ⟨v, hv, h⟩ := Option.bind_eq_some_iff.mp h
      rw [List.forall_mem_cons, ← eq_of_linearAt hv]
      split at h
      case isTrue eq => rw [ih h, and_iff_right eq]
      case isFalse ne =>
          cases h
          simp [ne]

/-- The line through two entries is the only one. -/
theorem through?_of_line {slope offset : Int} {p q : Int × Int} {line : Option (Int × Int)}
    (h : through? p q = some line) (apart : p.1 < q.1) (hp : slope * p.1 + offset = p.2)
    (hq : slope * q.1 + offset = q.2) : line = some (slope, offset) := by
  obtain ⟨rise, hrise, h⟩ := Option.bind_eq_some_iff.mp h
  obtain ⟨run, hrun, h⟩ := Option.bind_eq_some_iff.mp h
  have run_pos : 0 < run := by
    rw [Word.eq_of_checked hrun]
    omega
  have multiple : rise = slope * run := by
    rw [Word.eq_of_checked hrise, Word.eq_of_checked hrun, ← hp, ← hq]
    ring
  rw [multiple, if_pos (Int.mul_tmod_left ..), Int.mul_tdiv_cancel _ run_pos.ne'] at h
  obtain ⟨slope', hslope, h⟩ := Option.bind_eq_some_iff.mp h
  obtain ⟨back, hback, h⟩ := Option.bind_eq_some_iff.mp h
  obtain ⟨offset', hoffset, h⟩ := Option.bind_eq_some_iff.mp h
  rw [← Option.some.inj h, Word.eq_of_checked hoffset, Word.eq_of_checked hback,
    Word.eq_of_checked hslope, ← hp, add_sub_cancel_left]

/-! ## Tables -/

/-- A table as a list of entries in the order of their iterations. -/
theorem listed_iff {entries : TreeMap Nat Nat} {P : Int × Int → Prop} :
    (∀ e ∈ entries.toList.map fun (i, v) => ((i : Int), (v : Int)), P e) ↔
      ∀ i v : Nat, entries[i]? = some v → P (i, v) := by
  rw [List.forall_mem_map]
  constructor
  · exact fun all i v hv => all (i, v) (TreeMap.mem_toList_iff_getElem?_eq_some.mpr hv)
  · exact fun all e he => all e.1 e.2 (TreeMap.mem_toList_iff_getElem?_eq_some.mp he)

theorem ascending_listed (entries : TreeMap Nat Nat) :
    (entries.toList.map fun (i, v) => ((i : Int), (v : Int))).Pairwise fun e e' => e.1 < e'.1 := by
  refine List.pairwise_map.mpr (TreeMap.ordered_keys_toList.imp fun h => ?_)
  exact Int.ofNat_lt.mpr (Nat.compare_eq_lt.mp h)

/-- What is detected is a constant if all indices agree, a line if one goes
through all entries, and the table otherwise. -/
theorem detect?_cases {entries : TreeMap Nat Nat} {p : Pattern} (h : detect? entries = some p)
    (small : Small entries) :
    (∃ i v : Nat, entries[i]? = some v ∧ p = constant v ∧ Uniform entries) ∨
    (∃ slope offset, p = linear slope offset ∧ ¬Uniform entries ∧ OnLine entries slope offset) ∨
    ∃ t, p = table t ∧ (∀ i : Nat, t[i]? = entries[i]?) ∧
      ((∀ i : Nat, entries[i]? = none) ∨
        ¬Uniform entries ∧ ∀ slope offset, ¬OnLine entries slope offset) := by
  have listed {P : Int × Int → Prop} := @listed_iff entries P
  have ascending := ascending_listed entries
  rw [detect?, signed_toList small] at h
  split at h
  case h_1 empty =>
      cases h
      rw [empty] at listed
      have none (i : Nat) : entries[i]? = none := by
        refine Option.eq_none_iff_forall_ne_some.mpr fun v hv => ?_
        exact (listed (P := fun _ => False)).mp (by simp) i v hv
      exact .inr (.inr ⟨∅, rfl, fun i => by simp [none], .inl none⟩)
  case h_2 first rest list =>
      rw [list] at listed ascending
      let entry (e : Int × Int) : Prop :=
        ∃ i v : Nat, entries[i]? = some v ∧ e = ((i : Int), (v : Int))
      obtain ⟨i, v, hv, rfl⟩ : entry first :=
        (listed (P := entry)).mpr (fun i v hv => ⟨i, v, hv, rfl⟩) first (List.mem_cons_self ..)
      have uniform : (rest.all fun e => e.2 == (v : Int)) = true ↔ Uniform entries := by
        have all := listed (P := fun e => e.2 = (v : Int))
        rw [List.forall_mem_cons, and_iff_right rfl] at all
        simp only [List.all_eq_true, beq_iff_eq, all, Int.natCast_inj]
        exact ⟨fun same i j w w' hw hw' => (same i w hw).trans (same j w' hw').symm,
          fun same j w hw => same j i w v hw hv⟩
      split at h
      case isTrue same =>
          cases h
          exact .inl ⟨i, v, hv, by rw [Word.unsigned_eq (small i v hv).2], uniform.mp same⟩
      case isFalse differ =>
          replace differ : ¬Uniform entries := mt uniform.mpr differ
          split at h
          case h_1 => exact absurd (uniform.mp rfl) differ
          case h_2 second rest =>
              have apart := (List.pairwise_cons.mp ascending).1 second (List.mem_cons_self ..)
              obtain ⟨line, hline, h⟩ := Option.bind_eq_some_iff.mp h
              -- a line through all entries is the one through the first two
              have only {slope offset : Int} (on : OnLine entries slope offset) :
                  line = some (slope, offset) := by
                have all := (listed (P := fun e => slope * e.1 + offset = e.2)).mpr on
                exact through?_of_line hline apart (all _ (List.mem_cons_self ..))
                  (all _ (List.mem_cons_of_mem _ (List.mem_cons_self ..)))
              split at h
              case h_1 =>
                  cases h
                  refine .inr (.inr ⟨entries, rfl, fun _ => rfl,
                    .inr ⟨differ, fun slope offset on => ?_⟩⟩)
                  cases only on
              case h_2 slope offset =>
                  obtain ⟨fits, hfits, h⟩ := Option.bind_eq_some_iff.mp h
                  have on : fits = true ↔ OnLine entries slope offset :=
                    (fits?_iff hfits).trans listed
                  split at h
                  case isTrue yes =>
                      cases h
                      exact .inr (.inl ⟨slope, offset, rfl, differ, on.mp yes⟩)
                  case isFalse no =>
                      cases h
                      refine .inr (.inr ⟨entries, rfl, fun _ => rfl,
                        .inr ⟨differ, fun slope' offset' on' => no (on.mpr ?_)⟩⟩)
                      cases only on'
                      exact on'

/-- Any line goes through all entries of the table without entries, which is kept
as it is. -/
theorem detect?_empty :
    detect? ∅ = some (table ∅) ∧ (table ∅).isConstant = false ∧ (table ∅).isLinear = false ∧
      ∃ slope offset, OnLine ∅ slope offset :=
  ⟨rfl, rfl, rfl, 0, 0, fun _ _ hv => nomatch hv.symm.trans TreeMap.getElem?_emptyc⟩

/-- The simplest pattern that has the indices of a table. -/
structure IsSimplest (entries : TreeMap Nat Nat) (p : Pattern) : Prop where
  eval : ∀ i v : Nat, entries[i]? = some v → p.eval i = some v
  constant : p.isConstant = true ↔ (∃ i v : Nat, entries[i]? = some v) ∧ Uniform entries
  linear : p.isLinear = true ↔ p.isConstant = false ∧ (∃ i v : Nat, entries[i]? = some v) ∧
    ∃ slope offset, OnLine entries slope offset
  otherwise : p.isConstant = false → p.isLinear = false →
    ∃ t, p = table t ∧ ∀ i : Nat, t[i]? = entries[i]?

/-- What is detected is the simplest pattern. -/
theorem isSimplest_of_detect? {entries : TreeMap Nat Nat} {p : Pattern}
    (h : detect? entries = some p) (small : Small entries) : IsSimplest entries p := by
  -- a table that is not uniform has entries
  have occupied (differ : ¬Uniform entries) : ∃ i v : Nat, entries[i]? = some v := by
    by_contra none
    exact differ fun i j v w hv => absurd ⟨i, v, hv⟩ none
  rcases detect?_cases h small with
    ⟨i, v, hv, rfl, uniform⟩ | ⟨slope, offset, rfl, differ, on⟩ | ⟨t, rfl, same, rest⟩
  case inl =>
      exact {
        eval := fun i v => eval_of_detect? h small
        constant := ⟨fun _ => ⟨⟨i, v, hv⟩, uniform⟩, fun _ => rfl⟩
        linear := by simp [isConstant, isLinear]
        otherwise := fun no => nomatch no }
  case inr.inl =>
      exact {
        eval := fun i v => eval_of_detect? h small
        constant := by simp [isConstant, differ]
        linear := ⟨fun _ => ⟨rfl, occupied differ, slope, offset, on⟩, fun _ => rfl⟩
        otherwise := fun _ no => nomatch no }
  case inr.inr =>
      exact {
        eval := fun i v => eval_of_detect? h small
        constant := by rcases rest with none | ⟨differ, -⟩ <;> simp [isConstant, *]
        linear := by rcases rest with none | ⟨-, crooked⟩ <;> simp [isLinear, *]
        otherwise := fun _ _ => ⟨t, rfl, same⟩ }

/-! ## Bounds -/

/-- Tables whose iterations and indices are below `2 ^ 31`. -/
def Narrow (entries : TreeMap Nat Nat) : Prop :=
  ∀ i v : Nat, entries[i]? = some v → i < 0x80000000 ∧ v < 0x80000000

theorem Narrow.small {entries : TreeMap Nat Nat} (narrow : Narrow entries) : Small entries := by
  intro i v hv
  have := narrow i v hv
  omega

theorem narrow_denseTable {indices : List Nat} (length : indices.length ≤ 0x80000000)
    (narrow : ∀ v ∈ indices, v < 0x80000000) : Narrow (denseTable indices) := by
  intro i v hv
  rw [getElem?_denseTable] at hv
  exact ⟨(List.getElem?_eq_some_iff.mp hv).1.trans_le length, narrow v (List.mem_of_getElem? hv)⟩

/-- Detection stays within signed words on narrow tables. -/
theorem Narrow.exists_detect? {entries : TreeMap Nat Nat} (narrow : Narrow entries) :
    ∃ p, detect? entries = some p ∧ IsSimplest entries p := by
  obtain ⟨p, hp⟩ := detect?_isSome (by decide : 0x80000000 * 0x80000000 < 0x8000000000000000) narrow
  exact ⟨p, hp, isSimplest_of_detect? hp narrow.small⟩

/-- Patterns of dense tables of one length are equivalent only if the tables agree. -/
theorem equivalent_iff_of_dense {a b : List Nat} {p q : Pattern} (length : a.length = b.length)
    (ha : IsSimplest (denseTable a) p) (hb : IsSimplest (denseTable b) q) :
    p.equivalent q a.length = true ↔ a = b := by
  have eval {l : List Nat} {p : Pattern} (h : IsSimplest (denseTable l) p) {i : Nat}
      (lt : i < l.length) : p.eval i = l[i]? := by
    rw [List.getElem?_eq_getElem lt]
    exact h.eval i _ ((getElem?_denseTable l i).trans (List.getElem?_eq_getElem lt))
  rw [equivalent_iff]
  constructor
  · intro agree
    refine List.ext_getElem? fun i => ?_
    by_cases lt : i < a.length
    · rw [← eval ha lt, ← eval hb (length ▸ lt), agree i lt]
    · rw [List.getElem?_eq_none (by omega), List.getElem?_eq_none (by omega)]
  · rintro rfl i lt
    rw [eval ha lt, eval hb lt]

/-- Detection finds the simplest pattern of a table, without an overflow, and tells
dense tables apart. -/
theorem detection_canonical :
    (∀ entries : TreeMap Nat Nat, Narrow entries →
      ∃ p, detect? entries = some p ∧ IsSimplest entries p) ∧
    ∀ a b : List Nat, a.length = b.length → a.length ≤ 0x80000000 →
      (∀ v ∈ a, v < 0x80000000) → (∀ v ∈ b, v < 0x80000000) →
      ∃ p q, detectDense? a = some p ∧ detectDense? b = some q ∧
        (p.equivalent q a.length = true ↔ a = b) := by
  refine ⟨fun entries narrow => narrow.exists_detect?, fun a b length le ha hb => ?_⟩
  obtain ⟨p, hp, simplest⟩ := (narrow_denseTable le ha).exists_detect?
  obtain ⟨q, hq, simplest'⟩ := (narrow_denseTable (length ▸ le) hb).exists_detect?
  exact ⟨p, q, hp, hq, equivalent_iff_of_dense length simplest simplest'⟩

/-- A falling line through two entries that are apart, and two tables of four. -/
theorem detection_canonical_falling :
    (∃ p, detect? ((∅ : TreeMap Nat Nat).insert 1 10 |>.insert 4 1) = some p ∧
      IsSimplest ((∅ : TreeMap Nat Nat).insert 1 10 |>.insert 4 1) p) ∧
    ∃ p q, detectDense? [9, 6, 3, 0] = some p ∧ detectDense? [9, 6, 3, 1] = some q ∧
      (p.equivalent q 4 = true ↔ [9, 6, 3, 0] = [9, 6, 3, 1]) := by
  refine ⟨detection_canonical.1 _ fun i v hv => ?_, detection_canonical.2 [9, 6, 3, 0] [9, 6, 3, 1]
    rfl (by decide) (by decide) (by decide)⟩
  simp only [TreeMap.getElem?_insert, Nat.compare_eq_eq] at hv
  split at hv
  · cases hv
    omega
  · split at hv
    · cases hv
      omega
    · exact nomatch hv.symm.trans TreeMap.getElem?_emptyc

end Pattern

end LoopDiff
