import Mathlib.Tactic.ByContra
import LoopDiff.Tape.Words

/-!
# LoopDiff.Proofs.Tape.Words

What is in a packed set.

A number is in a set if its bit is set (`Words.has`).  Membership in the
results of the operations on sets is membership in the operands; nothing is
lost or gained where one word ends and the next begins.
-/

namespace LoopDiff

/-! ## Bits of a word -/

/-- Subtracting one and intersecting clears the lowest set bit and leaves the
others. -/
theorem testBit_and_pred {n c : Nat} (low : ∀ k < c, n.testBit k = false)
    (here : n.testBit c = true) (k : Nat) :
    (n &&& (n - 1)).testBit k = true ↔ n.testBit k = true ∧ k ≠ c := by
  induction c generalizing n k with
  | zero =>
      have odd : n % 2 = 1 := by simpa [Nat.testBit_zero] using here
      cases k with
      | zero =>
          have even : (n - 1) % 2 = 0 := by omega
          simp [Nat.testBit_zero, even]
      | succ k =>
          have half : (n - 1) / 2 = n / 2 := by omega
          rw [Nat.testBit_and, Nat.testBit_succ, Nat.testBit_succ, half]
          simp
  | succ c ih =>
      have even : n % 2 = 0 := by
        have := low 0 (Nat.succ_pos c)
        simp only [Nat.testBit_zero, decide_eq_false_iff_not] at this
        omega
      rw [Nat.testBit_succ] at here
      have pos : n / 2 ≠ 0 := by
        intro zero
        rw [zero, Nat.zero_testBit] at here
        cases here
      cases k with
      | zero => simp [Nat.testBit_zero, even]
      | succ k =>
          have half : (n - 1) / 2 = n / 2 - 1 := by omega
          have rest := ih (n := n / 2)
            (fun k hk => by rw [← Nat.testBit_succ]; exact low _ (Nat.succ_lt_succ hk)) here k
          rw [Nat.testBit_and, Nat.testBit_succ, Nat.testBit_succ, half, ← Nat.testBit_and, rest]
          simp

/-- The set bits of a word are listed, and nothing else. -/
theorem mem_setBits {w : UInt64} {k : Nat} : k ∈ setBits w ↔ w.toNat.testBit k = true := by
  induction w using setBits.induct with
  | case1 =>
      rw [setBits]
      simp
  | case2 w nonzero ih =>
      have nonzero' : w.toBitVec ≠ 0#64 := fun zero => nonzero (UInt64.toBitVec_inj.mp zero)
      have here := BitVec.getLsbD_true_ctz_of_ne_zero nonzero'
      have low (k : Nat) (hk : k < w.toBitVec.ctz.toNat) : w.toNat.testBit k = false :=
        BitVec.getLsbD_false_of_lt_ctz hk
      have pred : (w - 1).toNat = w.toNat - 1 :=
        UInt64.toNat_sub_of_le _ _ (UInt64.le_iff_toNat_le.mpr
          (Nat.pos_of_ne_zero fun zero => nonzero (UInt64.toNat_inj.mp zero)))
      rw [setBits, dif_neg nonzero, List.mem_cons, ih, UInt64.toNat_and, pred,
        testBit_and_pred low here]
      by_cases eq : k = w.toBitVec.ctz.toNat
      · subst eq
        exact iff_of_true (.inl rfl) here
      · simp [eq]

theorem toNat_one_shiftLeft {b : Nat} (lt : b < 64) :
    ((1 : UInt64) <<< b.toUInt64).toNat = 1 <<< b := by
  have small : b.toUInt64.toNat = b := Nat.mod_eq_of_lt (Nat.lt_trans lt (by decide))
  rw [UInt64.toNat_shiftLeft, small, Nat.mod_eq_of_lt lt, UInt64.toNat_one, Nat.one_shiftLeft,
    Nat.mod_eq_of_lt (Nat.pow_lt_pow_right (by decide) lt)]

theorem lt_of_testBit_toNat {w : UInt64} {k : Nat} (h : w.toNat.testBit k = true) : k < 64 := by
  by_contra ge
  rw [Nat.testBit_lt_two_pow (Nat.lt_of_lt_of_le w.toNat_lt (Nat.pow_le_pow_right (by decide)
    (Nat.not_lt.mp ge)))] at h
  cases h

namespace Words

variable {n : Nat}

/-- Whether a number is in a set. -/
def has (ws : Words n) (j : Nat) : Bool := (ws[j / 64]?.getD 0).toNat.testBit (j % 64)

theorem has_empty (n j : Nat) : (empty n).has j = false := by
  rw [has, empty, Vector.getElem?_replicate]
  split <;> simp

@[simp] theorem has_union (ws others : Words n) (j : Nat) :
    (ws.union others).has j = (ws.has j || others.has j) := by
  by_cases lt : j / 64 < wordsFor n
  · simp [has, union, lt]
  · simp [has, union, lt]

/-- A number that there is room for is added. -/
theorem exists_insert (ws : Words n) {j : Nat} (room : j / 64 < wordsFor n) :
    ∃ ws', ws.insert j = .ok ws' ∧ ∀ k, ws'.has k = true ↔ ws.has k = true ∨ k = j := by
  refine ⟨_, dif_pos room, fun k => ?_⟩
  have bit := toNat_one_shiftLeft (Nat.mod_lt j (by decide : 0 < 64))
  rw [has, has, Vector.getElem?_set]
  by_cases word : j / 64 = k / 64
  · have here : ws[k / 64]?.getD 0 = ws[j / 64] := by
      rw [← word, Vector.getElem?_eq_getElem room, Option.getD_some]
    rw [if_pos word, here, Option.getD_some, UInt64.toNat_or, Nat.testBit_or, bit,
      Nat.one_shiftLeft, Nat.testBit_two_pow, Bool.or_eq_true, decide_eq_true_eq]
    exact or_congr_right ⟨fun _ => by omega, fun eq => by rw [eq]⟩
  · rw [if_neg word, or_iff_left]
    rintro rfl
    exact word rfl

/-- Listed are the members below `n`. -/
theorem mem_bits {ws : Words n} {j : Nat} : j ∈ ws.bits ↔ j < n ∧ ws.has j = true := by
  have word (k : Nat) (w : UInt64) : (w, k) ∈ ws.toList.zipIdx ↔ ws[k]? = some w := by
    rw [List.mk_mem_zipIdx_iff_getElem?, Vector.getElem?_toList]
  simp only [bits, List.mem_flatMap, List.mem_filter, List.mem_map, mem_setBits,
    decide_eq_true_eq]
  constructor
  · rintro ⟨⟨w, k⟩, hw, ⟨bit, hbit, rfl⟩, lt⟩
    have small := lt_of_testBit_toNat hbit
    have at_ := (word k w).mp hw
    refine ⟨lt, ?_⟩
    rw [has, show (k * 64 + bit) / 64 = k by omega, show (k * 64 + bit) % 64 = bit by omega, at_]
    exact hbit
  · rintro ⟨lt, bit⟩
    have inside : j / 64 < wordsFor n := by
      rw [wordsFor]
      omega
    have at_ : ws[j / 64]? = some ws[j / 64] := Vector.getElem?_eq_getElem inside
    rw [has, at_, Option.getD_some] at bit
    exact ⟨(_, j / 64), (word _ _).mpr at_, ⟨j % 64, bit, by omega⟩, lt⟩

end Words

end LoopDiff
