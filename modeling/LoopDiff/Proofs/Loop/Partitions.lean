import LoopDiff.Proofs.Loop.Claims
import LoopDiff.Proofs.Maps

/-!
# LoopDiff.Proofs.Loop.Partitions

The partition of claims, as a list and as a set of sets.

Claims divide the iterations they are at into sets, one for each number of
claims (`Claims.partition`).  A scope keeps this division as a list of lists
(`Claims.key`): each set ascending, the sets by size, then by first
iteration.  No two sets of a partition begin with the same iteration, so the
order is strict, and the list says neither more nor less than the set of sets
(`Claims.key_eq_iff`).
-/

namespace LoopDiff

open Std (TreeMap)

namespace Claims

/-! ## Sets of iterations -/

/-- The iterations that are claimed a number of times. -/
def iterationsOf (claims : Claims) (count : Nat) : Finset Nat :=
  ((claims.toList.filter fun e => e.2.count = count).map Prod.fst).toFinset

/-- The claimed iterations, divided by the number of claims. -/
def partition (claims : Claims) : Finset (Finset Nat) :=
  (claims.toList.map fun e => claims.iterationsOf e.2.count).toFinset

/-- The partition as a scope keeps it. -/
def key (claims : Claims) : Partition :=
  LoopScope.partitionOf (LoopScope.parts (LoopScope.groups claims))

variable {claims claims' : Claims} {it count : Nat} {s : Finset Nat} {p : List Nat}

theorem mem_iterationsOf : it ∈ claims.iterationsOf count ↔
    ∃ c, claims[it]? = some c ∧ c.count = count := by
  rw [iterationsOf, List.mem_toFinset, List.mem_map]
  simp only [List.mem_filter, decide_eq_true_iff]
  constructor
  · rintro ⟨⟨_, c⟩, ⟨mem, eq⟩, rfl⟩
    exact ⟨c, TreeMap.mem_toList_iff_getElem?_eq_some.mp mem, eq⟩
  · rintro ⟨c, hc, eq⟩
    exact ⟨(it, c), ⟨TreeMap.mem_toList_iff_getElem?_eq_some.mpr hc, eq⟩, rfl⟩

theorem mem_partition : s ∈ claims.partition ↔
    ∃ (it : Nat) (c : Claim), claims[it]? = some c ∧ claims.iterationsOf c.count = s := by
  rw [partition, List.mem_toFinset, List.mem_map]
  constructor
  · rintro ⟨⟨it, c⟩, mem, rfl⟩
    exact ⟨it, c, TreeMap.mem_toList_iff_getElem?_eq_some.mp mem, rfl⟩
  · rintro ⟨it, c, hc, rfl⟩
    exact ⟨(it, c), TreeMap.mem_toList_iff_getElem?_eq_some.mpr hc, rfl⟩

/-! ## Sets in a key -/

theorem mem_key : p ∈ claims.key ↔
    ∃ part ∈ LoopScope.parts (LoopScope.groups claims), part.2.keys = p := by
  rw [key, LoopScope.partitionOf, List.mem_map]

/-- A set in a key is ascending. -/
theorem ascending_of_mem_key (h : p ∈ claims.key) : p.Pairwise (· < ·) := by
  obtain ⟨part, -, rfl⟩ := mem_key.mp h
  exact TreeMap.ordered_keys.imp Nat.compare_eq_lt.mp

theorem ne_nil_of_mem_key (h : p ∈ claims.key) : p ≠ [] := by
  obtain ⟨part, hpart, rfl⟩ := mem_key.mp h
  obtain ⟨it, c, hc, count⟩ := LoopScope.exists_of_group (LoopScope.mem_parts.mp hpart)
  exact List.ne_nil_of_mem ((LoopScope.mem_keys_part hpart).mpr ⟨c, hc, count⟩)

/-- The sets in a key are those of the partition. -/
theorem mem_partition_iff_key :
    s ∈ claims.partition ↔ ∃ p ∈ claims.key, p.toFinset = s := by
  have part_eq {part : LoopScope.Part} (h : part ∈ LoopScope.parts (LoopScope.groups claims)) :
      part.2.keys.toFinset = claims.iterationsOf part.1 := by
    ext it
    rw [List.mem_toFinset, LoopScope.mem_keys_part h, mem_iterationsOf]
  rw [mem_partition]
  constructor
  · rintro ⟨it, c, hc, rfl⟩
    obtain ⟨m, hm, -⟩ := LoopScope.exists_group hc
    have hpart : (c.count, m) ∈ LoopScope.parts (LoopScope.groups claims) :=
      LoopScope.mem_parts.mpr hm
    exact ⟨m.keys, mem_key.mpr ⟨_, hpart, rfl⟩, part_eq hpart⟩
  · rintro ⟨p, hp, rfl⟩
    obtain ⟨part, hpart, rfl⟩ := mem_key.mp hp
    obtain ⟨it, c, hc, count⟩ := LoopScope.exists_of_group (LoopScope.mem_parts.mp hpart)
    exact ⟨it, c, hc, by rw [part_eq hpart, count]⟩

/-! ## Keys and partitions -/

/-- The order of the sets in a key: by size, then by first iteration. -/
def setLE (p q : List Nat) : Prop :=
  p.length < q.length ∨ p.length = q.length ∧ p.headD 0 ≤ q.headD 0

theorem sorted_key (claims : Claims) : claims.key.Pairwise setLE := by
  rw [key, LoopScope.partitionOf, List.pairwise_map]
  have size (m : TreeMap Nat Nat) : m.size = m.keys.length := TreeMap.length_keys.symm
  refine (@List.pairwise_mergeSort _ LoopScope.partLE ?_ ?_ _).imp fun {p q} le => ?_
  · intro p q r
    simp only [LoopScope.partLE, Bool.or_eq_true, Bool.and_eq_true, decide_eq_true_iff, beq_iff_eq]
    omega
  · intro p q
    simp only [LoopScope.partLE, Bool.or_eq_true, Bool.and_eq_true, decide_eq_true_iff, beq_iff_eq]
    omega
  · simp only [LoopScope.partLE, Bool.or_eq_true, Bool.and_eq_true, decide_eq_true_iff,
      beq_iff_eq, size] at le
    exact le

/-- Two sets in a key that begin with the same iteration are the same. -/
theorem eq_of_head_eq {q : List Nat} (hp : p ∈ claims.key) (hq : q ∈ claims.key)
    (eq : p.headD 0 = q.headD 0) : p = q := by
  by_contra ne
  have symm : Std.Symm (List.Disjoint (α := Nat)) := ⟨fun _ _ h => h.symm⟩
  have apart : p.Disjoint q := (LoopScope.disjoint_partition claims).forall hp hq ne
  have head {p : List Nat} (h : p ∈ claims.key) : p.headD 0 ∈ p := by
    obtain ⟨i, l, rfl⟩ := List.exists_cons_of_ne_nil (ne_nil_of_mem_key h)
    exact List.mem_cons_self ..
  exact apart (head hp) (eq ▸ head hq)

theorem nodup_key (claims : Claims) : claims.key.Nodup := by
  refine (LoopScope.disjoint_partition claims).imp_of_mem fun {p q} hp _ apart eq => ?_
  obtain ⟨i, l, rfl⟩ := List.exists_cons_of_ne_nil (ne_nil_of_mem_key hp)
  exact apart (List.mem_cons_self ..) (eq ▸ List.mem_cons_self ..)

/-- An ascending list is determined by its members. -/
theorem eq_of_toFinset_eq {q : List Nat} (hp : p ∈ claims.key) (hq : q ∈ claims'.key)
    (eq : p.toFinset = q.toFinset) : p = q :=
  eq_of_ascending id (ascending_of_mem_key hp) (ascending_of_mem_key hq) fun it => by
    rw [← List.mem_toFinset, eq, List.mem_toFinset]

/-- The set of sets that a list of lists stands for. -/
def setsOf (p : Partition) : Finset (Finset Nat) := (p.map List.toFinset).toFinset

theorem setsOf_key (claims : Claims) : setsOf claims.key = claims.partition := by
  ext s
  rw [mem_partition_iff_key, setsOf, List.mem_toFinset, List.mem_map]

/-- There are as many sets in a key as in the partition. -/
theorem card_setsOf_key (claims : Claims) : (setsOf claims.key).card = claims.key.length := by
  rw [setsOf, List.toFinset_card_of_nodup, List.length_map]
  exact (nodup_key claims).map_on fun p hp q hq => eq_of_toFinset_eq hp hq

/-- The same sets make the same key. -/
theorem key_eq_iff : claims.key = claims'.key ↔ claims.partition = claims'.partition := by
  constructor
  · intro eq
    rw [← setsOf_key, eq, setsOf_key]
  · intro eq
    have sub {claims claims' : Claims} (eq : claims.partition = claims'.partition) (p : List Nat)
        (hp : p ∈ claims.key) : p ∈ claims'.key := by
      have mem : p.toFinset ∈ claims.partition := mem_partition_iff_key.mpr ⟨p, hp, rfl⟩
      obtain ⟨q, hq, same⟩ := mem_partition_iff_key.mp (eq ▸ mem)
      exact eq_of_toFinset_eq hq hp same ▸ hq
    have perm : claims.key.Perm claims'.key :=
      (List.perm_ext_iff_of_nodup (nodup_key _) (nodup_key _)).mpr fun p =>
        ⟨sub eq p, sub eq.symm p⟩
    refine List.Perm.eq_of_pairwise (fun p q hp hq le le' => ?_) (sorted_key _) (sorted_key _) perm
    refine eq_of_head_eq hp (sub eq.symm q hq) ?_
    rcases le with lt | ⟨len, le⟩ <;> rcases le' with lt' | ⟨len', le'⟩ <;> omega

end Claims

end LoopDiff
