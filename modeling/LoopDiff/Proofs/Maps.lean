import LoopDiff.Sparsity
import Std.Data.TreeMap
import Mathlib.Algebra.BigOperators.Group.Finset.Sigma
import Mathlib.Algebra.BigOperators.Group.List.Basic
import Mathlib.Data.List.Sort

/-!
# LoopDiff.Proofs.Maps

Maps and the lists that are made of them.

The maps of the library are visited in ascending order.  A list is what a
visit gives if it is ascending and has the right members, so most statements
about visits come down to statements about members.
-/

namespace LoopDiff

open Std (TreeMap)

/-- Ascending lists with the same members are equal. -/
theorem eq_of_ascending {α : Type} (key : α → Nat) {l l' : List α}
    (h : l.Pairwise fun x y => key x < key y) (h' : l'.Pairwise fun x y => key x < key y)
    (mem : ∀ x, x ∈ l ↔ x ∈ l') : l = l' := by
  have nodup {l : List α} (h : l.Pairwise fun x y => key x < key y) : l.Nodup := by
    refine h.imp ?_
    rintro x _ lt rfl
    exact Nat.lt_irrefl _ lt
  exact List.Perm.eq_of_pairwise (fun x y _ _ lt lt' => absurd lt (Nat.lt_asymm lt')) h h'
    ((List.perm_ext_iff_of_nodup (nodup h) (nodup h')).mpr mem)

/-- A map is listed in ascending order. -/
theorem toList_eq_of_ascending {α : Type} {m : TreeMap Nat α} {l : List (Nat × α)}
    (ascending : l.Pairwise fun e e' => e.1 < e'.1)
    (mem : ∀ k v, (k, v) ∈ l ↔ m[k]? = some v) : m.toList = l := by
  refine eq_of_ascending Prod.fst ?_ ascending fun e => ?_
  · exact TreeMap.ordered_keys_toList.imp fun h => Nat.compare_eq_lt.mp h
  · rw [mem e.1 e.2, ← TreeMap.mem_toList_iff_getElem?_eq_some]

theorem nodup_toList {α : Type} [Ord α] [Std.TransOrd α] (s : Std.TreeSet α) : s.toList.Nodup :=
  Std.TreeSet.distinct_toList.imp fun ne eq => ne (by rw [eq]; exact Std.ReflOrd.compare_self)

theorem nodup_map_fst_toList {κ β : Type} [Ord κ] [Std.TransOrd κ] (m : TreeMap κ β) :
    (m.toList.map Prod.fst).Nodup := by
  rw [TreeMap.map_fst_toList_eq_keys]
  exact TreeMap.nodup_keys

theorem lookup_of_mem {κ β : Type} [BEq κ] [LawfulBEq κ] {l : List (κ × β)}
    (nodup : (l.map Prod.fst).Nodup) {k : κ} {v : β} (h : (k, v) ∈ l) : l.lookup k = some v := by
  obtain ⟨l₁, l₂, rfl⟩ := List.append_of_mem h
  refine List.lookup_eq_some_iff.mpr ⟨l₁, l₂, rfl, fun e he => ?_⟩
  rw [List.map_append, List.map_cons] at nodup
  have apart := (List.nodup_append.mp nodup).2.2 e.1 (List.mem_map_of_mem he) k
    (List.mem_cons_self ..)
  simpa using Ne.symm apart

theorem lookup_zip_of_mem {κ β : Type} [BEq κ] [LawfulBEq κ] {ks : List κ} {vs : List β}
    (nodup : ks.Nodup) (length : vs.length = ks.length) {k : κ} {v : β}
    (h : (k, v) ∈ ks.zip vs) : (ks.zip vs).lookup k = some v :=
  lookup_of_mem (by rwa [List.map_fst_zip length.ge]) h

theorem lookup_zip_eq_none {κ β : Type} [BEq κ] [LawfulBEq κ] {ks : List κ} {vs : List β} {k : κ}
    (free : k ∉ ks) : (ks.zip vs).lookup k = none := by
  refine List.lookup_eq_none_iff.mpr fun e mem => ?_
  have ne : k ≠ e.1 := fun eq => free (eq ▸ (List.of_mem_zip mem).1)
  simpa using ne

/-- A map that is made of a list with distinct keys has what the list has. -/
theorem getElem?_ofList {κ β : Type} [Ord κ] [Std.TransOrd κ] [Std.LawfulEqOrd κ] [DecidableEq κ]
    {l : List (κ × β)} (nodup : (l.map Prod.fst).Nodup) {k : κ} {v : β} :
    (TreeMap.ofList l)[k]? = some v ↔ (k, v) ∈ l := by
  have distinct : l.Pairwise fun x y => ¬compare x.1 y.1 = .eq :=
    (List.pairwise_map.mp nodup).imp fun ne eq => ne (Std.LawfulEqOrd.eq_of_compare eq)
  have listed {v : β} (mem : (k, v) ∈ l) : (TreeMap.ofList l)[k]? = some v :=
    TreeMap.getElem?_ofList_of_mem Std.ReflOrd.compare_self distinct mem
  refine ⟨fun h => ?_, listed⟩
  by_cases mem : k ∈ l.map Prod.fst
  · obtain ⟨⟨_, w⟩, here, rfl⟩ := List.mem_map.mp mem
    cases (listed here).symm.trans h
    exact here
  · have absent : (l.map Prod.fst).contains k = false := by
      rwa [Bool.eq_false_iff, ne_eq, List.contains_iff_mem]
    rw [TreeMap.getElem?_ofList_of_contains_eq_false absent] at h
    cases h

/-- What comes up in a visit to a map is in the map. -/
theorem getElem?_of_split {κ β : Type} [Ord κ] [Std.TransOrd κ] [Std.LawfulEqOrd κ]
    {m : TreeMap κ β} {done rest : List (κ × β)} {e : κ × β}
    (split : m.toList = done ++ e :: rest) : m[e.1]? = some e.2 := by
  refine TreeMap.mem_toList_iff_getElem?_eq_some.mp ?_
  rw [split]
  exact List.mem_append_right _ (List.mem_cons_self ..)

/-- What a map has after elements with new and distinct keys were put in. -/
theorem getElem?_foldl_insert {κ β : Type} [Ord κ] [Std.TransOrd κ] [Std.LawfulEqOrd κ]
    {es : List (κ × β)} {m : TreeMap κ β} (nodup : (es.map Prod.fst).Nodup)
    (free : ∀ e ∈ es, m[e.1]? = none) {k : κ} {v : β} :
    (es.foldl (fun m (k, v) => m.insert k v) m)[k]? = some v ↔ m[k]? = some v ∨ (k, v) ∈ es := by
  induction es generalizing m with
  | nil => simp
  | cons e es ih =>
      rw [List.map_cons, List.nodup_cons] at nodup
      rw [List.foldl_cons, ih nodup.2, TreeMap.getElem?_insert, List.mem_cons, ← or_assoc]
      · refine or_congr_left ?_
        split
        case isTrue eq =>
            cases Std.LawfulEqOrd.eq_of_compare eq
            simp [free e (List.mem_cons_self ..), Prod.ext_iff, eq_comm]
        case isFalse ne =>
            refine (or_iff_left fun eq => ne ?_).symm
            rw [← eq]
            exact Std.ReflCmp.compare_self
      · intro e' he'
        rw [TreeMap.getElem?_insert, if_neg, free e' (List.mem_cons_of_mem _ he')]
        intro eq
        rw [Std.LawfulEqOrd.eq_of_compare eq] at nodup
        exact nodup.1 (List.mem_map_of_mem he')

/-- There is no first repeat if and only if nothing is repeated. -/
theorem firstRepeat?_eq_none_iff {α : Type} [Ord α] [Std.TransOrd α] [Std.LawfulEqOrd α]
    {xs : List α} {seen : Std.TreeSet α} :
    firstRepeat? xs seen = none ↔ xs.Nodup ∧ ∀ x ∈ xs, x ∉ seen := by
  induction xs generalizing seen with
  | nil => simp [firstRepeat?]
  | cons x xs ih =>
      rw [firstRepeat?, List.nodup_cons]
      by_cases repeated : seen.contains x = true
      · rw [if_pos repeated]
        exact iff_of_false (by simp) fun h =>
          h.2 x (List.mem_cons_self ..) (Std.TreeSet.contains_iff_mem.mp repeated)
      · rw [if_neg repeated, ih]
        simp only [Std.TreeSet.mem_insert, Std.compare_eq_iff_eq, List.forall_mem_cons, not_or]
        have fresh : x ∉ seen := fun mem => repeated (Std.TreeSet.contains_iff_mem.mpr mem)
        constructor
        · rintro ⟨nodup, apart⟩
          exact ⟨⟨fun mem => (apart x mem).1 rfl, nodup⟩, fresh, fun y hy => (apart y hy).2⟩
        · rintro ⟨⟨free, nodup⟩, -, apart⟩
          exact ⟨nodup, fun y hy => ⟨fun eq => free (eq ▸ hy), apart y hy⟩⟩

/-- The first repeat is there twice, or has been seen before. -/
theorem one_lt_count_of_firstRepeat? {α : Type} [Ord α] [Std.TransOrd α] [Std.LawfulEqOrd α]
    [BEq α] [LawfulBEq α] {xs : List α} {seen : Std.TreeSet α} {x : α}
    (h : firstRepeat? xs seen = some x) : 1 < xs.count x ∨ x ∈ xs ∧ x ∈ seen := by
  induction xs generalizing seen with
  | nil => cases h
  | cons y xs ih =>
      rw [firstRepeat?] at h
      split at h
      case isTrue repeated =>
          cases h
          exact .inr ⟨List.mem_cons_self .., Std.TreeSet.contains_iff_mem.mp repeated⟩
      case isFalse =>
          rw [List.count_cons]
          rcases ih h with twice | ⟨mem, known⟩
          · exact .inl (Nat.lt_add_right _ twice)
          · rw [Std.TreeSet.mem_insert, Std.compare_eq_iff_eq] at known
            rcases known with rfl | known
            · have positive := List.count_pos_iff.mpr mem
              exact .inl (by simpa using positive)
            · exact .inr ⟨List.mem_cons_of_mem _ mem, known⟩

/-! ## Arrays -/

/-- What is at a place after some elements have been set. -/
theorem getElem?_foldl_set {α : Type} {es : List (Nat × α)} {ys : Array α} {k : Nat} {v : α}
    (h : (es.foldl (fun y (d, v) => y.setIfInBounds d v) ys)[k]? = some v) :
    (k, v) ∈ es ∨ ys[k]? = some v ∧ k ∉ es.map Prod.fst := by
  induction es generalizing ys with
  | nil => exact .inr ⟨h, List.not_mem_nil⟩
  | cons e es ih =>
      rcases ih h with mem | ⟨at_, free⟩
      · exact .inl (List.mem_cons_of_mem _ mem)
      · rw [Array.getElem?_setIfInBounds] at at_
        split at at_
        case isTrue eq =>
            rw [← Option.some.inj (Option.ite_none_right_eq_some.mp at_).2, ← eq]
            exact .inl (List.mem_cons_self ..)
        case isFalse ne =>
            refine .inr ⟨at_, fun mem => ?_⟩
            rcases List.mem_cons.mp mem with eq | mem
            · exact ne eq.symm
            · exact free mem

theorem size_foldl_set {α : Type} (es : List (Nat × α)) (ys : Array α) :
    (es.foldl (fun y (d, v) => y.setIfInBounds d v) ys).size = ys.size := by
  induction es generalizing ys with
  | nil => rfl
  | cons e es ih => rw [List.foldl_cons, ih, Array.size_setIfInBounds]

/-! ## Rows -/

/-- Puts pairs in rows. -/
def addPairs (rows : Array IndexSet) (pairs : List (Nat × Nat)) : Array IndexSet :=
  pairs.foldl (fun rows (i, j) => rows.modify i fun row => row.insert j) rows

theorem mem_addPairs {rows : Array IndexSet} {pairs : List (Nat × Nat)} {i j : Nat} :
    j ∈ (addPairs rows pairs).getD i ∅ ↔ j ∈ rows.getD i ∅ ∨ (i, j) ∈ pairs ∧ i < rows.size := by
  induction pairs generalizing rows with
  | nil => simp [addPairs]
  | cons e pairs ih =>
      rw [addPairs, List.foldl_cons, ← addPairs, ih, Array.size_modify, Array.getD_eq_getD_getElem?,
        Array.getElem?_modify, Array.getD_eq_getD_getElem?, List.mem_cons]
      by_cases here : e.1 = i
      · by_cases lt : i < rows.size
        · rw [if_pos here, Array.getElem?_eq_getElem lt]
          simp [here, lt, Prod.ext_iff, Std.TreeSet.mem_insert, eq_comm (a := j), or_assoc,
            or_left_comm]
        · rw [if_pos here, Array.getElem?_eq_none (Nat.le_of_not_lt lt)]
          simp [lt]
      · rw [if_neg here]
        simp [Prod.ext_iff, Ne.symm here]

theorem size_addPairs {rows : Array IndexSet} {pairs : List (Nat × Nat)} :
    (addPairs rows pairs).size = rows.size := by
  induction pairs generalizing rows with
  | nil => rfl
  | cons e pairs ih => rw [addPairs, List.foldl_cons, ← addPairs, ih, Array.size_modify]

/-- The entries of copies are alike, also past the end if a copy stands in there. -/
theorem getD_replicate {α : Type} (n i : Nat) (x : α) : (Array.replicate n x).getD i x = x := by
  rw [Array.getD_eq_getD_getElem?, Array.getElem?_replicate]
  split <;> rfl

/-- Pairs in rows that were empty. -/
theorem mem_addPairs_replicate {n : Nat} {pairs : List (Nat × Nat)} {i j : Nat} :
    j ∈ (addPairs (Array.replicate n ∅) pairs).toList.getD i ∅ ↔ (i, j) ∈ pairs ∧ i < n := by
  have empty : j ∉ (Array.replicate n (∅ : IndexSet)).getD i ∅ := by
    rw [getD_replicate]
    exact Std.TreeSet.not_mem_emptyc
  rw [List.getD_eq_getElem?_getD, Array.getElem?_toList, ← Array.getD_eq_getD_getElem?,
    mem_addPairs, or_iff_right empty, Array.size_replicate]

theorem exists_mem_row {rows : List IndexSet} {i j : Nat} :
    (∃ row, rows[i]? = some row ∧ j ∈ row) ↔ j ∈ rows.getD i ∅ := by
  rw [List.getD_eq_getElem?_getD]
  cases rows[i]? with
  | none => simp
  | some row => simp

/-! ## Sums over maps -/

/-- A sum over a list without repeats is one over more elements if the others
contribute nothing. -/
theorem sum_map_of_nodup {ι R : Type} [DecidableEq ι] [AddCommMonoid R] {xs : List ι}
    (nodup : xs.Nodup) {s : Finset ι} {f : ι → R} (inside : ∀ i ∈ xs, i ∈ s)
    (zero : ∀ i, i ∉ xs → f i = 0) : (xs.map f).sum = ∑ i ∈ s, f i := by
  rw [← List.sum_toFinset _ nodup]
  refine Finset.sum_subset (fun i hi => inside i (List.mem_toFinset.mp hi)) fun i _ free => ?_
  exact zero i fun mem => free (List.mem_toFinset.mpr mem)

/-- A sum over a set of indices is one over all indices if those outside
the set contribute nothing. -/
theorem sum_toList {R : Type} [AddCommMonoid R] {s : Std.TreeSet Nat} {n : Nat} {f : Nat → R}
    (below : ∀ i ∈ s, i < n) (zero : ∀ i, i ∉ s → f i = 0) :
    (s.toList.map f).sum = ∑ i ∈ Finset.range n, f i :=
  sum_map_of_nodup (nodup_toList s)
    (fun i hi => Finset.mem_range.mpr (below i (Std.TreeSet.mem_toList.mp hi)))
    fun i free => zero i fun mem => free (Std.TreeSet.mem_toList.mpr mem)

/-- A sum over a set of pairs is one over all pairs if those outside the set
contribute nothing. -/
theorem sum_pairs {R : Type} [AddCommMonoid R] {s : PairSet} {n : Nat} {f : Nat → Nat → R}
    (below : ∀ p q, (p, q) ∈ s → p < n ∧ q < n) (zero : ∀ p q, (p, q) ∉ s → f p q = 0) :
    (s.toList.map fun e => f e.1 e.2).sum =
      ∑ p ∈ Finset.range n, ∑ q ∈ Finset.range n, f p q := by
  rw [← Finset.sum_product']
  refine sum_map_of_nodup (nodup_toList s) (fun e he => ?_) fun e free =>
    zero e.1 e.2 fun mem => free (Std.TreeSet.mem_toList.mpr mem)
  obtain ⟨hp, hq⟩ := below e.1 e.2 (Std.TreeSet.mem_toList.mp he)
  exact Finset.mem_product.mpr ⟨Finset.mem_range.mpr hp, Finset.mem_range.mpr hq⟩

/-- Of a list without repeats only one element contributes. -/
theorem sum_map_ite_eq {ι R : Type} [DecidableEq ι] [AddCommMonoid R] {xs : List ι}
    (nodup : xs.Nodup) (i : ι) (f : ι → R) :
    (xs.map fun j => if j = i then f j else 0).sum = if i ∈ xs then f i else 0 := by
  rw [List.sum_map_eq_nsmul_single i (fun j => if j = i then f j else 0) fun j ne _ => if_neg ne,
    nodup.count, if_pos rfl]
  split
  · exact one_nsmul _
  · exact zero_nsmul _

theorem sum_map_flatMap {α β R : Type} [AddCommMonoid R] (xs : List α) (f : α → List β) (g : β → R) :
    ((xs.flatMap f).map g).sum = (xs.map fun x => ((f x).map g).sum).sum := by
  rw [List.map_flatMap, List.flatMap_def, List.sum_flatten, List.map_map]
  rfl

/-- A sum over a list is one over its positions. -/
theorem sum_map_eq_sum_range {α R : Type} [AddCommMonoid R] {xs : List α} {g : α → R} {f : Nat → R}
    (h : ∀ i x, xs[i]? = some x → g x = f i) :
    (xs.map g).sum = ∑ i ∈ Finset.range xs.length, f i := by
  have listed : xs.map g = (List.range xs.length).map f := by
    refine List.ext_getElem (by simp) fun i lt lt' => ?_
    rw [List.getElem_map, List.getElem_map, List.getElem_range]
    exact h i _ (List.getElem?_eq_getElem _)
  rw [listed]
  rfl

/-- A sum over a list of which some elements are left out. -/
theorem sum_map_filterMap {α β R : Type} [AddCommMonoid R] (l : List α) (f : α → Option β)
    (g : β → R) : ((l.filterMap f).map g).sum = (l.map fun x => (f x).elim 0 g).sum := by
  induction l with
  | nil => rfl
  | cons x l ih =>
      cases hx : f x with
      | none => rw [List.filterMap_cons_none hx, ih, List.map_cons, hx, List.sum_cons,
          Option.elim_none, zero_add]
      | some y => rw [List.filterMap_cons_some hx, List.map_cons, List.sum_cons, ih, List.map_cons,
          hx, List.sum_cons, Option.elim_some]

section

variable {κ β R : Type} [Ord κ] [Std.TransOrd κ] [Std.LawfulEqOrd κ] [DecidableEq κ]
  [AddCommMonoid R]

theorem perm_cons_filter {m : TreeMap κ β} {k : κ} {v : β} (h : m[k]? = some v) :
    m.toList.Perm ((k, v) :: m.toList.filter fun e => ¬k == e.1) := by
  refine List.Perm.trans ?_ TreeMap.toList_insert_perm
  have nodup (m : TreeMap κ β) : m.toList.Nodup := (nodup_map_fst_toList m).of_map
  refine (List.perm_ext_iff_of_nodup (nodup _) (nodup _)).mpr fun e => ?_
  rw [TreeMap.mem_toList_iff_getElem?_eq_some, TreeMap.mem_toList_iff_getElem?_eq_some,
    TreeMap.getElem?_insert]
  split
  case isTrue eq => rw [← Std.LawfulEqOrd.eq_of_compare eq, h]
  case isFalse => exact Iff.rfl

/-- What a sum over a map makes of a new value. -/
theorem sum_insert (m : TreeMap κ β) (k : κ) (v : β) (g : κ × β → R) :
    ((m.insert k v).toList.map g).sum + ((m[k]?).elim 0 fun old => g (k, old)) =
      (m.toList.map g).sum + g (k, v) := by
  rw [(TreeMap.toList_insert_perm.map g).sum_eq, List.map_cons, List.sum_cons]
  cases old : m[k]? with
  | none =>
      have all : m.toList.filter (fun e => ¬k == e.1) = m.toList := by
        refine List.filter_eq_self.mpr fun e he => ?_
        rw [TreeMap.mem_toList_iff_getElem?_eq_some] at he
        refine decide_eq_true fun eq => ?_
        rw [← eq_of_beq eq, old] at he
        cases he
      rw [all, Option.elim_none, add_zero, add_comm]
  | some x =>
      rw [((perm_cons_filter old).map g).sum_eq, List.map_cons, List.sum_cons, Option.elim_some,
        add_comm, ← add_assoc, add_right_comm]

end

end LoopDiff
