import LoopDiff.Loop.Scope
import LoopDiff.Proofs.Yields
import Mathlib.Data.List.Perm.Basic
import Mathlib.Data.List.Induction

/-!
# LoopDiff.Proofs.Loop.Claims

Claims, and their partition by number.

Claims on a value do not conflict as long as every iteration claims it for
one location (`yields_addAll`).  The parts of a partition are what the
claims of one number make up: together they have every claim once, and no
two of them share an iteration.
-/

namespace LoopDiff

open Std (TreeMap TreeSet)

/-! ## Partitions -/

namespace LoopScope

/-- Takes one claim into the groups. -/
def group (groups : TreeMap Nat (TreeMap Nat Nat)) (e : Nat × Claim) :
    TreeMap Nat (TreeMap Nat Nat) :=
  groups.insert e.2.count ((groups.getD e.2.count ∅).insert e.1 e.2.location)

theorem groups_eq (claims : Claims) : groups claims = claims.toList.foldl group ∅ :=
  TreeMap.foldl_eq_foldl_toList

theorem getElem?_foldl_group {es : List (Nat × Claim)}
    (distinct : es.Pairwise fun e e' => e.1 ≠ e'.1) {count it location : Nat} :
    ((es.foldl group ∅).getD count ∅)[it]? = some location ↔
      ∃ c, (it, c) ∈ es ∧ c.count = count ∧ c.location = location := by
  induction es using List.reverseRecOn with
  | nil => simp
  | append_singleton es e ih =>
      obtain ⟨i, c⟩ := e
      obtain ⟨distinct, -, apart⟩ := List.pairwise_append.mp distinct
      rw [List.foldl_append, List.foldl_cons, List.foldl_nil, group, TreeMap.getD_insert]
      have last (c' : Claim) : (it, c') ∈ es ++ [(i, c)] ↔
          (it, c') ∈ es ∨ it = i ∧ c' = c := by
        rw [List.mem_append, List.mem_singleton, Prod.mk.injEq]
      simp only [Nat.compare_eq_eq, last]
      by_cases same : c.count = count
      · subst same
        rw [if_pos rfl, TreeMap.getElem?_insert]
        by_cases here : i = it
        · subst here
          rw [if_pos (Nat.compare_eq_eq.mpr rfl), Option.some.injEq]
          constructor
          · rintro rfl
            exact ⟨c, .inr ⟨rfl, rfl⟩, rfl, rfl⟩
          · rintro ⟨c', hc' | ⟨-, rfl⟩, -, rfl⟩
            · exact absurd rfl (apart _ hc' (i, c) (List.mem_singleton.mpr rfl))
            · rfl
        · rw [if_neg (mt Nat.compare_eq_eq.mp here), ih distinct]
          refine exists_congr fun c' => and_congr_left' ⟨.inl, ?_⟩
          rintro (hc' | ⟨rfl, -⟩)
          · exact hc'
          · exact absurd rfl here
      · rw [if_neg same, ih distinct]
        refine exists_congr fun c' => ⟨fun h => ⟨.inl h.1, h.2⟩, ?_⟩
        rintro ⟨hc' | ⟨rfl, rfl⟩, count_eq, h⟩
        · exact ⟨hc', count_eq, h⟩
        · exact absurd count_eq same

theorem contains_foldl_group {es : List (Nat × Claim)} {count : Nat} :
    (es.foldl group ∅).contains count = true ↔ ∃ e ∈ es, e.2.count = count := by
  induction es using List.reverseRecOn with
  | nil => simp
  | append_singleton es e ih =>
      rw [List.foldl_append, List.foldl_cons, List.foldl_nil, group, TreeMap.contains_insert,
        Bool.or_eq_true, ih, beq_iff_eq, Nat.compare_eq_eq]
      simp only [List.mem_append, List.mem_singleton]
      constructor
      · rintro (h | ⟨e', he', h⟩)
        · exact ⟨e, .inr rfl, h⟩
        · exact ⟨e', .inl he', h⟩
      · rintro ⟨e', he' | rfl, h⟩
        · exact .inr ⟨e', he', h⟩
        · exact .inl h

variable {claims : Claims}

theorem distinct_claims (claims : Claims) : claims.toList.Pairwise fun e e' => e.1 ≠ e'.1 :=
  TreeMap.ordered_keys_toList.imp fun lt => Nat.ne_of_lt (Nat.compare_eq_lt.mp lt)

/-- The claims of one number. -/
theorem mem_group {count : Nat} {m : TreeMap Nat Nat} (h : (groups claims)[count]? = some m)
    {it location : Nat} : m[it]? = some location ↔
      ∃ c, claims[it]? = some c ∧ c.count = count ∧ c.location = location := by
  have value : (groups claims).getD count ∅ = m := by
    rw [TreeMap.getD_eq_getD_getElem?, h, Option.getD_some]
  rw [← value, groups_eq, getElem?_foldl_group (distinct_claims claims)]
  simp only [TreeMap.mem_toList_iff_getElem?_eq_some]

/-- Every claim is in a group. -/
theorem exists_group {it : Nat} {c : Claim} (h : claims[it]? = some c) :
    ∃ m, (groups claims)[c.count]? = some m ∧ m[it]? = some c.location := by
  have there : (groups claims).contains c.count = true := by
    rw [groups_eq, contains_foldl_group]
    exact ⟨(it, c), TreeMap.mem_toList_iff_getElem?_eq_some.mpr h, rfl⟩
  rw [TreeMap.contains_eq_isSome_getElem?, Option.isSome_iff_exists] at there
  obtain ⟨m, hm⟩ := there
  exact ⟨m, hm, (mem_group hm).mpr ⟨c, h, rfl, rfl⟩⟩

/-- No group is empty. -/
theorem exists_of_group {count : Nat} {m : TreeMap Nat Nat} (h : (groups claims)[count]? = some m) :
    ∃ (it : Nat) (c : Claim), claims[it]? = some c ∧ c.count = count := by
  have there : (groups claims).contains count = true := by
    rw [TreeMap.contains_eq_isSome_getElem?, h]
    rfl
  rw [groups_eq, contains_foldl_group] at there
  obtain ⟨⟨it, c⟩, he, eq⟩ := there
  exact ⟨it, c, TreeMap.mem_toList_iff_getElem?_eq_some.mp he, eq⟩

theorem mem_parts {groups : TreeMap Nat (TreeMap Nat Nat)} {part : Part} :
    part ∈ parts groups ↔ groups[part.1]? = some part.2 := by
  rw [parts, List.mem_mergeSort, TreeMap.mem_toList_iff_getElem?_eq_some]

/-- The iterations of one part. -/
theorem mem_keys_part {part : Part} (h : part ∈ parts (groups claims)) {it : Nat} :
    it ∈ part.2.keys ↔ ∃ c, claims[it]? = some c ∧ c.count = part.1 := by
  rw [TreeMap.mem_keys, TreeMap.mem_iff_isSome_getElem?, Option.isSome_iff_exists]
  constructor
  · rintro ⟨location, hl⟩
    obtain ⟨c, hc, count_eq, -⟩ := (mem_group (mem_parts.mp h)).mp hl
    exact ⟨c, hc, count_eq⟩
  · rintro ⟨c, hc, count_eq⟩
    exact ⟨c.location, (mem_group (mem_parts.mp h)).mpr ⟨c, hc, count_eq, rfl⟩⟩

/-- Different parts have no iteration in common. -/
theorem disjoint_partition (claims : Claims) :
    (partitionOf (parts (groups claims))).Pairwise List.Disjoint := by
  have counts : (parts (groups claims)).Pairwise fun p q => p.1 ≠ q.1 := by
    refine (List.mergeSort_perm _ _).symm.pairwise ?_ fun ne => Ne.symm ne
    exact TreeMap.ordered_keys_toList.imp fun lt => Nat.ne_of_lt (Nat.compare_eq_lt.mp lt)
  rw [partitionOf, List.pairwise_map]
  refine counts.imp_of_mem fun {p q} hp hq ne it hit hit' => ?_
  obtain ⟨c, hc, count⟩ := (mem_keys_part hp).mp hit
  obtain ⟨c', hc', count'⟩ := (mem_keys_part hq).mp hit'
  cases hc.symm.trans hc'
  exact ne (count.symm.trans count')

end LoopScope

/-! ## Adding claims -/

namespace Claims

/-- A claim that does not conflict with an earlier one. -/
theorem add_eq {claims : Claims} {it location : Nat} {pair : Nat × Nat}
    (free : ∀ c, claims[it]? = some c → c.location = location) :
    ∃ claims', claims.add it location pair = .ok claims' ∧
      (∃ c, claims'[it]? = some c ∧ c.location = location ∧
        c.count = ((claims[it]?).map Claim.count).getD 0 + 1) ∧
      ∀ j, j ≠ it → claims'[j]? = claims[j]? := by
  have other {c : Claim} {j : Nat} (ne : j ≠ it) : (claims.insert it c)[j]? = claims[j]? := by
    rw [TreeMap.getElem?_insert, if_neg (mt Nat.compare_eq_eq.mp (Ne.symm ne))]
  rw [add]
  cases hc : claims[it]? with
  | none =>
      exact ⟨_, rfl, ⟨_, TreeMap.getElem?_insert_self, rfl, rfl⟩, fun j => other⟩
  | some c =>
      simp only [Claim.again, if_pos (free c hc).symm]
      exact ⟨_, rfl, ⟨_, TreeMap.getElem?_insert_self, free c hc, rfl⟩, fun j => other⟩

end Claims

end LoopDiff
