import LoopDiff.Pattern
import LoopDiff.Proofs.Maps
import Mathlib.Algebra.Order.Ring.Abs
import Mathlib.Algebra.Order.Ring.Int
import Mathlib.Tactic.Ring
import Mathlib.Tactic.Linarith

/-!
# LoopDiff.Proofs.Pattern

What detection finds behind a table.

A pattern that was detected behind a table of indices gives the indices of
the table (`eval_of_detect?`).  Detection succeeds if the numbers of
iterations and of indices are small enough together for signed words
(`detect?_isSome`): every intermediate result is the difference of two
indices, or such a difference times an iteration.

Patterns that are equal need not be built alike, but have the same indices, so
equivalent patterns are those that agree (`equivalent_iff`).
-/

namespace LoopDiff

open Std (TreeMap)

namespace Word

theorem signed_eq {n : Nat} (h : n < 0x8000000000000000) : signed n = n :=
  Int.bmod_eq_of_le (by omega) (by simp only [count]; omega)

theorem unsigned_eq {n : Nat} (h : n < 0x8000000000000000) : unsigned n = n := by
  rw [unsigned, count]
  omega

theorem checked_eq {z : Int} (h : |z| < 0x8000000000000000) : checked z = some z := by
  rw [abs_lt] at h
  exact if_pos ⟨by omega, by omega⟩

end Word

namespace Pattern

theorem getElem?_denseTable (indices : List Nat) (i : Nat) :
    (denseTable indices)[i]? = indices[i]? := by
  ext v
  rw [denseTable, getElem?_ofList, List.mem_map]
  case nodup =>
    rw [List.map_map]
    exact (List.zipIdx_map_snd 0 indices).symm ▸ List.nodup_range'
  constructor
  · rintro ⟨⟨w, j⟩, mem, eq⟩
    cases eq
    exact List.mem_zipIdx_iff_getElem?.mp mem
  · exact fun hv => ⟨(v, i), List.mem_zipIdx_iff_getElem?.mpr hv, rfl⟩

/-! ## Soundness -/

/-- Tables whose iterations and indices are signed words. -/
def Small (entries : TreeMap Nat Nat) : Prop :=
  ∀ i v, entries[i]? = some v → i < 0x8000000000000000 ∧ v < 0x8000000000000000

theorem signed_toList {entries : TreeMap Nat Nat} (small : Small entries) :
    (entries.toList.map fun (i, v) => (Word.signed i, Word.signed v)) =
      entries.toList.map fun (i, v) => ((i : Int), (v : Int)) := by
  refine List.map_congr_left fun (i, v) he => ?_
  obtain ⟨hi, hv⟩ := small i v (TreeMap.mem_toList_iff_getElem?_eq_some.mp he)
  simp only [Word.signed_eq hi, Word.signed_eq hv]

theorem linearAt_of_fits? {slope offset : Int} {entries : List (Int × Int)}
    (h : fits? slope offset entries = some true) {e : Int × Int} (he : e ∈ entries) :
    linearAt slope offset e.1 = some e.2 := by
  induction entries with
  | nil => cases he
  | cons e' rest ih =>
      rw [fits?, Option.bind_eq_bind, Option.bind_eq_some_iff] at h
      obtain ⟨v, hv, h⟩ := h
      split at h
      case isTrue eq =>
          rcases List.mem_cons.mp he with rfl | he
          · rw [hv, eq]
          · exact ih h he
      case isFalse => cases h

/-- A detected pattern gives the indices of the table. -/
theorem eval_of_detect? {entries : TreeMap Nat Nat} {p : Pattern} (h : detect? entries = some p)
    (small : Small entries) {i v : Nat} (hv : entries[i]? = some v) : p.eval i = some v := by
  have mem : ((i : Int), (v : Int)) ∈ entries.toList.map fun (i, v) => ((i : Int), (v : Int)) :=
    List.mem_map.mpr ⟨(i, v), TreeMap.mem_toList_iff_getElem?_eq_some.mpr hv, rfl⟩
  rw [detect?, signed_toList small] at h
  split at h
  case h_1 empty =>
      rw [empty] at mem
      cases mem
  case h_2 first rest list =>
      rw [list] at mem
      split at h
      case isTrue same =>
          cases h
          rw [List.all_eq_true] at same
          have eq : first.2 = v := by
            rcases List.mem_cons.mp mem with rfl | mem
            · rfl
            · exact (eq_of_beq (same _ mem)).symm
          rw [eval, eq, Word.unsigned_eq (small i v hv).2]
      case isFalse =>
          split at h
          case h_1 =>
              cases h
              exact hv
          case h_2 second _ =>
              obtain ⟨through, -, h⟩ := Option.bind_eq_some_iff.mp h
              split at h
              case h_1 =>
                  cases h
                  exact hv
              case h_2 slope offset =>
                  obtain ⟨fits, hfits, h⟩ := Option.bind_eq_some_iff.mp h
                  split at h
                  case isFalse =>
                      cases h
                      exact hv
                  case isTrue yes =>
                      cases h
                      subst yes
                      simp only [eval]
                      rw [Word.signed_eq (small i v hv).1, linearAt_of_fits? hfits mem]
                      simp

/-- The pattern of a list of indices gives the indices. -/
theorem eval_of_detectDense? {indices : List Nat} {p : Pattern}
    (h : detectDense? indices = some p) (length : indices.length < 0x8000000000000000)
    (small : ∀ v ∈ indices, v < 0x8000000000000000) {i v : Nat} (hv : indices[i]? = some v) :
    p.eval i = some v := by
  refine eval_of_detect? h (fun j w hw => ?_) ((getElem?_denseTable indices i).trans hv)
  rw [getElem?_denseTable] at hw
  exact ⟨(List.getElem?_eq_some_iff.mp hw).1.trans length, small w (List.mem_of_getElem? hw)⟩

/-! ## Equivalence -/

theorem eval_eq_of_beq {p q : Pattern} (h : (p == q) = true) (it : Nat) :
    p.eval it = q.eval it := by
  cases p <;> cases q <;> simp only [BEq.beq, instBEqPattern.beq] at h <;>
    first | cases h | skip
  case constant.constant => rw [of_decide_eq_true h]
  case linear.linear =>
      obtain ⟨slope, offset⟩ := (Bool.and_eq_true _ _).mp h
      rw [of_decide_eq_true slope, of_decide_eq_true offset]
  case table.table => exact (Std.TreeMap.equiv_of_beq h).getElem?_eq

/-- Patterns are equivalent if they have the same indices. -/
theorem equivalent_iff {p q : Pattern} {n : Nat} :
    p.equivalent q n = true ↔ ∀ it < n, p.eval it = q.eval it := by
  rw [equivalent, Bool.or_eq_true, Nat.all_eq_finRange_all, List.all_eq_true]
  constructor
  · rintro (eq | all) it lt
    · exact eval_eq_of_beq eq it
    · exact eq_of_beq (all ⟨it, lt⟩ (List.mem_finRange _))
  · exact fun all => .inr fun it _ => beq_iff_eq.mpr (all it it.isLt)

/-! ## Success -/

/-- A product of an index difference and an iteration number. -/
theorem abs_mul_le {s i : Int} {n k : Nat} (hs : |s| ≤ k) (hi : |i| ≤ n) : |s * i| ≤ k * n := by
  rw [abs_mul]
  exact mul_le_mul hs hi (abs_nonneg i) (Int.natCast_nonneg k)

theorem fits?_isSome {slope offset : Int} {entries : List (Int × Int)}
    (h : ∀ e ∈ entries, ∃ v, linearAt slope offset e.1 = some v) :
    ∃ b, fits? slope offset entries = some b := by
  induction entries with
  | nil => exact ⟨true, rfl⟩
  | cons e rest ih =>
      obtain ⟨v, hv⟩ := h e (List.mem_cons_self ..)
      obtain ⟨b, hb⟩ := ih fun e he => h e (List.mem_cons_of_mem _ he)
      simp only [fits?, hv, Option.bind_eq_bind, Option.bind_some]
      split
      · exact ⟨b, hb⟩
      · exact ⟨false, rfl⟩

/-- Entries at the first `n + 1` iterations, with indices up to `k`. -/
def Within (n k : Nat) (e : Int × Int) : Prop := 0 ≤ e.1 ∧ e.1 ≤ n ∧ 0 ≤ e.2 ∧ e.2 ≤ k

/-- The line through two entries stays within signed words. -/
theorem through?_isSome {n k : Nat} (small : k * n + k < 0x8000000000000000) {p q : Int × Int}
    (hp : Within n k p) (hq : Within n k q) (hn : n < 0x8000000000000000) :
    ∃ line, through? p q = some line ∧ ∀ slope offset, line = some (slope, offset) →
      ∀ e, Within n k e → ∃ v, linearAt slope offset e.1 = some v := by
  obtain ⟨hp₁, hp₂, hp₃, hp₄⟩ := hp
  obtain ⟨hq₁, hq₂, hq₃, hq₄⟩ := hq
  have rise : |q.2 - p.2| ≤ k := abs_le.mpr ⟨by omega, by omega⟩
  have run : |q.1 - p.1| ≤ n := abs_le.mpr ⟨by omega, by omega⟩
  have slope : |(q.2 - p.2).tdiv (q.1 - p.1)| ≤ k := by
    refine le_trans ?_ rise
    rw [Int.abs_eq_natAbs, Int.abs_eq_natAbs]
    exact Int.ofNat_le.mpr (Int.natAbs_tdiv_le_natAbs _ _)
  have kn : (k : Int) * n + k < 0x8000000000000000 := by exact_mod_cast small
  have nonneg : 0 ≤ (k : Int) * n := mul_nonneg (Int.natCast_nonneg k) (Int.natCast_nonneg n)
  have word {z : Int} (h : |z| ≤ k * n + k) : Word.checked z = some z :=
    Word.checked_eq (lt_of_le_of_lt h kn)
  generalize hs : (q.2 - p.2).tdiv (q.1 - p.1) = s at slope
  have back : |s * p.1| ≤ k * n := abs_mul_le slope (abs_le.mpr ⟨by omega, by omega⟩)
  have offset : |p.2 - s * p.1| ≤ k * n + k := by
    rw [abs_le] at back ⊢
    constructor <;> omega
  rw [through?, word (le_trans rise (by omega)),
    Word.checked_eq (lt_of_le_of_lt run (by exact_mod_cast hn))]
  simp only [Option.bind_eq_bind, Option.bind_some, hs]
  split
  case isTrue =>
      rw [word (le_trans slope (by omega))]
      simp only [Option.bind_some]
      rw [word (le_trans back (by omega))]
      simp only [Option.bind_some]
      rw [word offset]
      refine ⟨_, rfl, fun s' o' eq e he => ?_⟩
      cases eq
      obtain ⟨he₁, he₂, -, -⟩ := he
      have product : |s * e.1| ≤ k * n := abs_mul_le slope (abs_le.mpr ⟨by omega, by omega⟩)
      have step : |s * (e.1 - p.1)| ≤ k * n :=
        abs_mul_le slope (abs_le.mpr ⟨by omega, by omega⟩)
      have sum : |s * e.1 + (p.2 - s * p.1)| ≤ k * n + k := by
        have eq : s * e.1 + (p.2 - s * p.1) = s * (e.1 - p.1) + p.2 := by ring
        rw [eq]
        rw [abs_le] at step ⊢
        constructor <;> omega
      refine ⟨s * e.1 + (p.2 - s * p.1), ?_⟩
      rw [linearAt, word (le_trans product (by omega))]
      exact word sum
  case isFalse => exact ⟨_, rfl, fun s' o' eq => by cases eq⟩

/-- Detection succeeds on tables within bounds. -/
theorem detect?_isSome {entries : TreeMap Nat Nat} {n k : Nat}
    (small : k * n < 0x8000000000000000)
    (within : ∀ i v, entries[i]? = some v → i < n ∧ v < k) : ∃ p, detect? entries = some p := by
  have cell {i v : Nat} (hv : entries[i]? = some v) :
      (k - 1) * (n - 1) + (k - 1) < 0x8000000000000000 ∧ n - 1 < 0x8000000000000000 := by
    obtain ⟨hi, hv⟩ := within i v hv
    obtain ⟨n, rfl⟩ : ∃ n', n = n' + 1 := ⟨n - 1, by omega⟩
    obtain ⟨k, rfl⟩ : ∃ k', k = k' + 1 := ⟨k - 1, by omega⟩
    rw [Nat.add_sub_cancel, Nat.add_sub_cancel]
    have expand : (k + 1) * (n + 1) = k * n + k + (n + 1) := by ring
    omega
  have small : Small entries := by
    intro i v hv
    obtain ⟨hi, hv'⟩ := within i v hv
    obtain ⟨hk, hn⟩ := cell hv
    have : k - 1 ≤ (k - 1) * (n - 1) + (k - 1) := Nat.le_add_left ..
    omega
  have mem {e : Int × Int}
      (he : e ∈ entries.toList.map fun (i, v) => ((i : Int), (v : Int))) :
      Within (n - 1) (k - 1) e ∧
        (k - 1) * (n - 1) + (k - 1) < 0x8000000000000000 ∧ n - 1 < 0x8000000000000000 := by
    obtain ⟨⟨i, v⟩, hv, rfl⟩ := List.mem_map.mp he
    rw [TreeMap.mem_toList_iff_getElem?_eq_some] at hv
    obtain ⟨hi, hv'⟩ := within i v hv
    refine ⟨⟨?_, ?_, ?_, ?_⟩, cell hv⟩ <;> simp only <;> omega
  rw [detect?, signed_toList small]
  generalize entries.toList.map (fun (i, v) => ((i : Int), (v : Int))) = list at mem
  match list with
  | [] => exact ⟨_, rfl⟩
  | first :: rest =>
      simp only
      split
      · exact ⟨_, rfl⟩
      · split
        case h_1 => exact ⟨_, rfl⟩
        case h_2 second rest' eq =>
            obtain ⟨hfirst, small, hn⟩ := mem (List.mem_cons_self ..)
            obtain ⟨line, hline, fits⟩ := through?_isSome small hfirst
              (mem (List.mem_cons_of_mem _ (List.mem_cons_self ..))).1 hn
            simp only [hline, Option.bind_eq_bind, Option.bind_some]
            split
            case h_1 => exact ⟨_, rfl⟩
            case h_2 slope offset =>
                obtain ⟨b, hb⟩ := fits?_isSome fun e he => fits slope offset rfl e (mem he).1
                simp only [hb, Option.bind_some]
                split <;> exact ⟨_, rfl⟩

end Pattern

end LoopDiff
