import LoopDiff.Model.Basic
import LoopDiff.Proofs.Maps
import LoopDiff.Proofs.Tape.Semantics
import LoopDiff.Proofs.Yields
import Mathlib.Data.Multiset.Bind

/-!
# LoopDiff.Proofs.Model.Acceptance

What the constructors of models check.

`Model.Accepted` says that a model and its parts came out of their
constructors, and that the tapes are well-formed.  The rest of the module
reads off what this means: sizes agree, indices are in range, and every
dependent is computed in exactly one place.
-/

namespace LoopDiff

open Std (TreeMap TreeSet)

theorem forall₂_of_mapM {α β : Type} {f : α → Except Failure β} {xs : List α} {ys : List β}
    (h : xs.mapM f = .ok ys) : List.Forall₂ (fun x y => f x = .ok y) xs ys := by
  induction xs generalizing ys with
  | nil =>
      cases h
      exact .nil
  | cons x xs ih =>
      rw [List.mapM_cons] at h
      obtain ⟨y, hy, h⟩ := bind_eq_ok h
      obtain ⟨ys', hys, h⟩ := bind_eq_ok h
      cases h
      exact .cons hy (ih hys)

theorem forM_ok {α : Type} {f : α → Except Failure Unit} {xs : List α} {x : Unit}
    (h : xs.forM f = .ok x) : ∀ x ∈ xs, f x = .ok () := by
  induction xs with
  | nil => exact fun _ hx => absurd hx List.not_mem_nil
  | cons y ys ih =>
      rw [List.forM] at h
      obtain ⟨_, hy, h⟩ := bind_eq_ok h
      intro x hx
      rcases List.mem_cons.mp hx with rfl | hx
      · exact hy
      · exact ih h x hx

variable {F : Type}

namespace Loop

/-- What is known of a loop that was accepted. -/
structure Valid (l : Loop F) : Prop where
  pos : 0 < l.iterations
  inputs : l.indexed.length + l.nonIndexed.length + l.temporaries.length = l.tape.inputCount
  outputs : l.dependents.length = l.tape.outputCount
  size_eq {row : Array Nat} : row ∈ l.dependents ++ l.indexed → row.size = l.iterations
  nodup : (l.dependents.flatMap Array.toList).Nodup
  dependentPatterns : List.Forall₂ (fun (row : Array Nat) p =>
    Pattern.detectDense? row.toList = some p) l.dependents l.dependentPatterns
  indexedPatterns : List.Forall₂ (fun (row : Array Nat) p =>
    Pattern.detectDense? row.toList = some p) l.indexed l.indexedPatterns

section

variable {id iterations : Nat} {tape : Tape F} {dependents indexed : List (Array Nat)}
  {nonIndexed temporaries : List Nat} {l : Loop F}

/-- A loop that was accepted has what it was made of. -/
theorem exists_of_make
    (h : make id tape iterations dependents indexed nonIndexed temporaries = .ok l) :
    l.Valid ∧ ∃ dependentPatterns indexedPatterns, l = ⟨id, tape, iterations, dependents, indexed,
      nonIndexed, temporaries, dependentPatterns, indexedPatterns⟩ := by
  rw [make] at h
  split at h
  case isTrue => cases h
  case isFalse pos =>
      obtain ⟨_, inputs, h⟩ := bind_eq_ok h
      obtain ⟨_, outputs, h⟩ := bind_eq_ok h
      obtain ⟨_, sizes, h⟩ := bind_eq_ok h
      split at h
      case h_1 => cases h
      case h_2 distinct =>
          obtain ⟨dependentPatterns, hd, h⟩ := bind_eq_ok h
          obtain ⟨indexedPatterns, hi, h⟩ := bind_eq_ok h
          cases h
          refine ⟨⟨Nat.pos_of_ne_zero pos, eq_of_checkSize inputs, eq_of_checkSize outputs,
            fun hrow => (eq_of_checkSize (forM_ok sizes _ hrow)).symm,
            (firstRepeat?_eq_none_iff.mp distinct).1, ?_, ?_⟩, _, _, rfl⟩
          · exact (forall₂_of_mapM hd).imp fun _ _ => eq_some_of_present
          · exact (forall₂_of_mapM hi).imp fun _ _ => eq_some_of_present

theorem valid_of_make
    (h : make id tape iterations dependents indexed nonIndexed temporaries = .ok l) : l.Valid :=
  (exists_of_make h).1

end

/-- The dependents of a loop, iteration by iteration. -/
theorem Valid.perm_dependents {l : Loop F} (valid : l.Valid) :
    ((List.range l.iterations).flatMap fun it => l.dependents.map fun row => row.getD it 0).Perm
      (l.dependents.flatMap Array.toList) := by
  have listed (row : Array Nat) (mem : row ∈ l.dependents) :
      row.toList = (List.range l.iterations).map fun it => row.getD it 0 := by
    have size := valid.size_eq (List.mem_append_left _ mem)
    refine List.ext_getElem (by simp [size]) fun i h h' => ?_
    have lt : i < row.size := by simpa using h
    simp [Array.getD_eq_getD_getElem?, lt]
  rw [List.flatMap_congr listed]
  refine Multiset.coe_eq_coe.mp ?_
  rw [← Multiset.coe_bind, ← Multiset.coe_bind]
  exact Multiset.bind_map_comm (List.range l.iterations : Multiset Nat)
    (l.dependents : Multiset (Array Nat))

/-- Where a dependent is computed. -/
theorem Valid.getElem?_positions {l : Loop F} (valid : l.Valid) {d e it : Nat} :
    l.positions[d]? = some ⟨e, it⟩ ↔
      ∃ row, l.dependents[e]? = some row ∧ row[it]? = some d := by
  have row (r : Array Nat × Nat) : (r.1.toList.zipIdx.map fun e =>
      (e.1, LoopPosition.mk r.2 e.2)).map Prod.fst = r.1.toList := by
    rw [List.map_map]
    exact List.zipIdx_map_fst ..
  have firsts : (l.dependents.zipIdx.flatMap fun r =>
      r.1.toList.zipIdx.map fun e => (e.1, LoopPosition.mk r.2 e.2)).map Prod.fst =
      l.dependents.flatMap Array.toList := by
    rw [List.map_flatMap]
    simp only [row]
    rw [← List.flatMap_map Prod.fst Array.toList, List.zipIdx_map_fst]
  rw [positions, getElem?_ofList (firsts ▸ valid.nodup)]
  simp [List.mem_zipIdx_iff_getElem?]

theorem Valid.positions_eq_none {l : Loop F} (valid : l.Valid) {d : Nat} :
    l.positions[d]? = none ↔ d ∉ l.dependents.flatMap Array.toList := by
  rw [Option.eq_none_iff_forall_ne_some]
  simp only [List.mem_flatMap, Array.mem_toList_iff, not_exists, not_and]
  refine ⟨fun h row hrow hd => ?_, fun h ⟨e, it⟩ hp => ?_⟩
  · obtain ⟨e, he⟩ := List.mem_iff_getElem?.mp hrow
    obtain ⟨it, hit⟩ := Array.mem_iff_getElem?.mp hd
    exact h ⟨e, it⟩ (valid.getElem?_positions.mpr ⟨row, he, hit⟩)
  · obtain ⟨row, he, hit⟩ := valid.getElem?_positions.mp hp
    exact h row (List.mem_of_getElem? he) (Array.mem_of_getElem? hit)

end Loop

namespace Outer

/-- What is known of an outer part that was accepted. -/
structure Valid (o : Outer F) : Prop where
  outputs : o.dependents.length + o.temporaryCount = o.tape.outputCount
  nodup : o.dependents.Nodup

theorem valid_of_make {o : Outer F} (h : make o.tape o.dependents o.temporaryCount = .ok o) :
    o.Valid := by
  rw [make] at h
  obtain ⟨_, outputs, h⟩ := bind_eq_ok h
  split at h
  case h_1 => cases h
  case h_2 distinct => exact ⟨eq_of_checkSize outputs, (firstRepeat?_eq_none_iff.mp distinct).1⟩

/-- Which output computes a dependent. -/
theorem Valid.getElem?_equations {o : Outer F} (valid : o.Valid) {d i : Nat} :
    o.equations[d]? = some i ↔ o.dependents[i]? = some d := by
  rw [equations, getElem?_ofList, List.mem_zipIdx_iff_getElem?]
  rw [List.zipIdx_map_fst]
  exact valid.nodup

end Outer

namespace Model

/-- All dependents that the parts of a model compute. -/
def computed (outer? : Option (Outer F)) (loops : List (Loop F)) : List Nat :=
  (outer?.elim [] fun o => o.dependents) ++
    loops.flatMap fun l => l.dependents.flatMap Array.toList

theorem computed_nil (outer? : Option (Outer F)) :
    computed outer? [] = outer?.elim [] fun o => o.dependents := by
  simp [computed]

theorem computed_append (outer? : Option (Outer F)) (done : List (Loop F)) (l : Loop F) :
    computed outer? (done ++ [l]) =
      computed outer? done ++ l.dependents.flatMap Array.toList := by
  simp [computed]

/-- What is known of a model that was accepted. -/
structure Valid (m : Model F) : Prop where
  domain_pos : 0 < m.domain
  range_pos : 0 < m.range
  range_lt : m.range < 0x8000000000000000
  outerInputs {o : Outer F} : m.outer? = some o → m.domain = o.tape.inputCount
  covers : (computed m.outer? m.loops).Perm (List.range m.range)
  indexed_lt {l : Loop F} : l ∈ m.loops → ∀ row ∈ l.indexed, ∀ j ∈ row, j < m.domain
  nonIndexed_lt {l : Loop F} : l ∈ m.loops → ∀ j ∈ l.nonIndexed, j < m.domain
  temporaries_lt {l : Loop F} : l ∈ m.loops → ∀ k ∈ l.temporaries, k < temporaryCount m.outer?

/-- A loop computes what no part before it does. -/
theorem Valid.sum_computed {R : Type} [AddCommMonoid R] {m : Model F} (valid : m.Valid)
    {done rest : List (Loop F)} {l : Loop F} (split : m.loops = done ++ l :: rest) (d : Nat)
    (y : R) : (if d ∈ computed m.outer? done then y else 0) +
      (if d ∈ l.dependents.flatMap Array.toList then y else 0) =
        if d ∈ computed m.outer? (done ++ [l]) then y else 0 := by
  have nodup := valid.covers.nodup_iff.mpr List.nodup_range
  rw [split, computed, List.flatMap_append, List.flatMap_cons, ← List.append_assoc,
    ← List.append_assoc, ← computed] at nodup
  have apart (mem : d ∈ computed m.outer? done) : d ∉ l.dependents.flatMap Array.toList :=
    fun mem' => (List.nodup_append.mp (List.nodup_append.mp nodup).1).2.2 d mem d mem' rfl
  rw [computed_append]
  by_cases mem : d ∈ computed m.outer? done
  · simp [mem, apart mem]
  · simp [mem]

theorem Valid.outerDependents_lt {m : Model F} (valid : m.Valid) {o : Outer F}
    (ho : m.outer? = some o) {d : Nat} (hd : d ∈ o.dependents) : d < m.range := by
  refine List.mem_range.mp (valid.covers.mem_iff.mp (List.mem_append_left _ ?_))
  rwa [ho]

theorem Valid.dependents_lt {m : Model F} (valid : m.Valid) {l : Loop F} (hl : l ∈ m.loops)
    {row : Array Nat} (hrow : row ∈ l.dependents) {d : Nat} (hd : d ∈ row) : d < m.range := by
  refine List.mem_range.mp (valid.covers.mem_iff.mp (List.mem_append_right _ ?_))
  exact List.mem_flatMap.mpr ⟨l, hl, List.mem_flatMap.mpr ⟨row, hrow, Array.mem_toList_iff.mpr hd⟩⟩

theorem cover_ok {range : Nat} {covered covered' : IndexSet} {ds : List Nat}
    (h : cover range covered ds = .ok covered') : ds.Nodup ∧ (∀ d ∈ ds, d < range ∧ d ∉ covered) ∧
      ∀ d, d ∈ covered' ↔ d ∈ covered ∨ d ∈ ds := by
  induction ds generalizing covered with
  | nil =>
      cases h
      exact ⟨.nil, by simp, by simp⟩
  | cons d ds ih =>
      rw [cover, List.foldlM_cons] at h
      obtain ⟨next, here, rest⟩ := bind_eq_ok h
      split at here
      case isTrue => cases here
      case isFalse lt =>
          split at here
          case isTrue => cases here
          case isFalse fresh =>
              cases here
              obtain ⟨nodup, inside, mem⟩ := ih rest
              have fresh' : d ∉ covered := fun mem => fresh (TreeSet.contains_iff_mem.mpr mem)
              refine ⟨List.nodup_cons.mpr ⟨fun hd => (inside d hd).2 (by simp), nodup⟩,
                fun d' hd' => ?_, fun d' => ?_⟩
              · rcases List.mem_cons.mp hd' with rfl | hd'
                · exact ⟨Nat.lt_of_not_le lt, fresh'⟩
                · exact ⟨(inside d' hd').1, fun mem => (inside d' hd').2 (by simp [mem])⟩
              · rw [mem, TreeSet.mem_insert, Std.compare_eq_iff_eq, List.mem_cons, or_assoc,
                  or_comm (a := d = d'), or_assoc, eq_comm (a := d)]
                tauto

theorem firstMissing?_eq_none {range d : Nat} {covered : IndexSet}
    (h : firstMissing? range covered d = none) {i : Nat} (le : d ≤ i) (lt : i < range) :
    i ∈ covered := by
  induction d using firstMissing?.induct range covered with
  | case1 d inside found ih =>
      rw [firstMissing?, if_pos inside, if_pos found] at h
      rcases Nat.eq_or_lt_of_le le with rfl | later
      · exact TreeSet.contains_iff_mem.mp found
      · exact ih h later
  | case2 d inside missing =>
      rw [firstMissing?, if_pos inside, if_neg missing] at h
      cases h
  | case3 d past => exact absurd (Nat.lt_of_le_of_lt le lt) past

theorem firstMissing?_of_forall {range d : Nat} {covered : IndexSet}
    (h : ∀ i < range, covered.contains i) : firstMissing? range covered d = none := by
  induction d using firstMissing?.induct range covered with
  | case1 d inside found ih => rw [firstMissing?, if_pos inside, if_pos found, ih]
  | case2 d inside missing => exact absurd (h d inside) missing
  | case3 d past => rw [firstMissing?, if_neg past]

theorem checkReads_ok {domain count : Nat} {l : Loop F} {x : Unit}
    (h : checkReads domain count l = .ok x) : (∀ row ∈ l.indexed, ∀ j ∈ row, j < domain) ∧
      (∀ j ∈ l.nonIndexed, j < domain) ∧ ∀ k ∈ l.temporaries, k < count := by
  rw [checkReads] at h
  split at h
  case h_1 => cases h
  case h_2 independents =>
      beta_reduce at h
      split at h
      case h_1 => cases h
      case h_2 temporaries =>
          rw [List.find?_eq_none] at independents temporaries
          refine ⟨fun row hrow j hj => ?_, fun j hj => ?_, fun k hk => ?_⟩
          · have mem : j ∈ l.indexed.flatMap Array.toList :=
              List.mem_flatMap.mpr ⟨row, hrow, Array.mem_toList_iff.mpr hj⟩
            simpa using independents j (List.mem_append_left _ mem)
          · simpa using independents j (List.mem_append_right _ hj)
          · simpa using temporaries k hk

/-- The loops compute what was not computed before, each dependent once. -/
theorem coverLoops_ok {domain range count : Nat} {covered covered' : IndexSet}
    {loops : List (Loop F)} (h : loops.foldlM (fun covered l => do
      let covered ← cover range covered (l.dependents.flatMap Array.toList)
      checkReads domain count l
      return covered) covered = .ok covered') :
    (loops.flatMap fun l => l.dependents.flatMap Array.toList).Nodup ∧
      (∀ d ∈ loops.flatMap fun l => l.dependents.flatMap Array.toList, d < range ∧ d ∉ covered) ∧
      (∀ d, d ∈ covered' ↔ d ∈ covered ∨
        d ∈ loops.flatMap fun l => l.dependents.flatMap Array.toList) ∧
      ∀ l ∈ loops, checkReads domain count l = .ok () := by
  induction loops generalizing covered with
  | nil =>
      cases h
      exact ⟨.nil, by simp, by simp, by simp⟩
  | cons l loops ih =>
      rw [List.foldlM_cons] at h
      obtain ⟨next, here, rest⟩ := bind_eq_ok h
      obtain ⟨next', cover, here⟩ := bind_eq_ok here
      obtain ⟨_, reads, here⟩ := bind_eq_ok here
      cases here
      obtain ⟨nodup, inside, mem⟩ := cover_ok cover
      obtain ⟨nodup', inside', mem', reads'⟩ := ih rest
      rw [List.flatMap_cons]
      refine ⟨List.nodup_append.mpr ⟨nodup, nodup', ?_⟩, fun d hd => ?_, fun d => ?_, ?_⟩
      · rintro d hd _ hd' rfl
        exact (inside' d hd').2 ((mem d).mpr (.inr hd))
      · rcases List.mem_append.mp hd with hd | hd
        · exact inside d hd
        · exact ⟨(inside' d hd).1, fun old => (inside' d hd).2 ((mem d).mpr (.inl old))⟩
      · rw [mem', mem, List.mem_append, or_assoc]
      · exact List.forall_mem_cons.mpr ⟨reads, reads'⟩

theorem valid_of_make {m : Model F} (h : make m.name m.domain m.range m.outer? m.loops = .ok m) :
    m.Valid := by
  rw [make] at h
  split at h
  case isTrue => cases h
  case isFalse shape =>
      simp only [Bool.or_eq_true, decide_eq_true_eq, not_or] at shape
      obtain ⟨_, extent, h⟩ := bind_eq_ok h
      obtain ⟨_, parts, -⟩ := bind_eq_ok h
      rw [checkParts] at parts
      obtain ⟨outerCovered, outerOk, parts⟩ := bind_eq_ok parts
      obtain ⟨allCovered, loopsOk, parts⟩ := bind_eq_ok parts
      obtain ⟨nodup, inside, mem, reads⟩ := coverLoops_ok loopsOk
      have all (d : Nat) (lt : d < m.range) : d ∈ allCovered := by
        split at parts
        case h_1 => cases parts
        case h_2 none => exact firstMissing?_eq_none none (Nat.zero_le d) lt
      have outer : (m.outer?.elim [] fun o => o.dependents).Nodup ∧
          (∀ d ∈ m.outer?.elim [] fun o => o.dependents, d < m.range) ∧
          (∀ d, d ∈ outerCovered ↔ d ∈ m.outer?.elim [] fun o => o.dependents) ∧
          ∀ o, m.outer? = some o → m.domain = o.tape.inputCount := by
        cases eq : m.outer? with
        | none =>
            rw [eq] at outerOk
            cases outerOk
            exact ⟨.nil, by simp, by simp, by simp⟩
        | some o =>
            rw [eq] at outerOk
            obtain ⟨_, size, outerOk⟩ := bind_eq_ok outerOk
            obtain ⟨nodup, inside, mem⟩ := cover_ok outerOk
            refine ⟨nodup, fun d hd => (inside d hd).1, by simpa using mem, ?_⟩
            rintro _ ⟨⟩
            exact eq_of_checkSize size
      obtain ⟨outerNodup, outerInside, outerMem, outerInputs⟩ := outer
      refine ⟨Nat.pos_of_ne_zero shape.1, Nat.pos_of_ne_zero shape.2, ?_, fun {o} => outerInputs o,
        ?_, fun {l} hl => (checkReads_ok (reads l hl)).1,
        fun {l} hl => (checkReads_ok (reads l hl)).2.1,
        fun {l} hl => (checkReads_ok (reads l hl)).2.2⟩
      · simpa using lt_of_checkExtent extent
      · refine (List.perm_ext_iff_of_nodup ?_ List.nodup_range).mpr fun d => ?_
        · refine List.nodup_append.mpr ⟨outerNodup, nodup, ?_⟩
          rintro d hd _ hd' rfl
          exact (inside d hd').2 ((outerMem d).mpr hd)
        · rw [computed, List.mem_append, List.mem_range, ← outerMem d, ← mem d]
          refine ⟨fun hd => ?_, all d⟩
          rcases (mem d).mp hd with hd | hd
          · exact outerInside d ((outerMem d).mp hd)
          · exact (inside d hd).1

/-- A model that came out of its constructor, with parts that came out of
theirs and well-formed tapes. -/
structure Accepted (m : Model F) : Prop where
  make_eq : make m.name m.domain m.range m.outer? m.loops = .ok m
  outer_eq {o : Outer F} : m.outer? = some o →
    Outer.make o.tape o.dependents o.temporaryCount = .ok o
  loop_eq {l : Loop F} : l ∈ m.loops → Loop.make l.id l.tape l.iterations l.dependents l.indexed
    l.nonIndexed l.temporaries = .ok l
  outerTape {o : Outer F} : m.outer? = some o → o.tape.WellFormed
  loopTape {l : Loop F} : l ∈ m.loops → l.tape.WellFormed

/-- Every integer power of a model has an exponent with a property. -/
def Exponents (m : Model F) (P : Int32 → Prop) : Prop :=
  (∀ o, m.outer? = some o → o.tape.Exponents P) ∧ ∀ l ∈ m.loops, l.tape.Exponents P

theorem Exponents.mono {m : Model F} {P Q : Int32 → Prop} (h : m.Exponents P)
    (imp : ∀ n, P n → Q n) : m.Exponents Q :=
  ⟨fun o ho i arg n hn => imp n (h.1 o ho i arg n hn),
    fun l hl i arg n hn => imp n (h.2 l hl i arg n hn)⟩

namespace Accepted

variable {m : Model F} (h : m.Accepted)

include h

theorem valid : m.Valid := valid_of_make h.make_eq

theorem outer {o : Outer F} (ho : m.outer? = some o) : o.Valid := Outer.valid_of_make (h.outer_eq ho)

theorem loop {l : Loop F} (hl : l ∈ m.loops) : l.Valid := Loop.valid_of_make (h.loop_eq hl)

end Accepted

/-- The products of two independents with the sine of a third, computed by a
loop, and the square of the third. -/
def products (F : Type) : Model F where
  name := "products"
  domain := 3
  range := 3
  outer? := some {
    tape := ⟨#[.input, .input, .input, .binary .mul 2 (some 2), .unary .sin 2 none], 3, [3, 4]⟩
    dependents := [2]
    temporaryCount := 1 }
  loops := [{
    id := 0
    tape := ⟨#[.input, .input, .binary .mul 0 (some 1)], 2, [2]⟩
    iterations := 2
    dependents := [#[0, 1]]
    indexed := [#[0, 1]]
    nonIndexed := []
    temporaries := [0]
    dependentPatterns := [.linear 1 0]
    indexedPatterns := [.linear 1 0] }]

theorem accepted_products : (products F).Accepted where
  make_eq := by
    have parts : checkParts "products" 3 3 (products F).outer? (products F).loops = .ok () := by
      have all : firstMissing? 3 (((∅ : IndexSet).insert 2).insert 0 |>.insert 1) 0 = none :=
        firstMissing?_of_forall (by decide)
      have outer : coverOuter 3 3 (products F).outer? = .ok ((∅ : IndexSet).insert 2) := rfl
      rw [checkParts, bind_of_ok outer]
      refine (bind_of_ok (x := ((∅ : IndexSet).insert 2).insert 0 |>.insert 1) rfl _).trans ?_
      rw [all]
      rfl
    show checkParts "products" 3 3 (products F).outer? (products F).loops >>=
      (fun _ => .ok (products F)) = _
    rw [parts]
    rfl
  outer_eq := by
    rintro _ ⟨⟩
    rfl
  loop_eq := by
    intro l hl
    cases List.mem_singleton.mp hl
    rfl
  outerTape := by
    rintro _ ⟨⟩
    exact of_decide_eq_true rfl
  loopTape := by
    intro l hl
    cases List.mem_singleton.mp hl
    exact of_decide_eq_true rfl

end Model

end LoopDiff
