import LoopDiff.Failure

/-!
# LoopDiff.Tape.Words

Sets of small numbers, packed into machine words.

Number `j` is bit `j % 64` of word `j / 64`.  A set of numbers below `n` has
as many words as that takes, so there may be room for up to 63 numbers that
are not below `n`; they are left out when the members are listed (`bits`).
-/

namespace LoopDiff

/-- Number of machine words that hold `n` bits. -/
def wordsFor (n : Nat) : Nat := (n + 63) / 64

/-- The words of a set of numbers below `n`. -/
abbrev Words (n : Nat) := Vector UInt64 (wordsFor n)

/-- The word without its lowest set bit is a smaller number. -/
theorem toNat_clearLowest_lt {w : UInt64} (h : w ≠ 0) : (w &&& (w - 1)).toNat < w.toNat := by
  have pos : 0 < w.toNat := Nat.pos_of_ne_zero fun zero => h (UInt64.toNat_inj.mp zero)
  have pred : (w - 1).toNat = w.toNat - 1 :=
    UInt64.toNat_sub_of_le _ _ (UInt64.le_iff_toNat_le.mpr pos)
  rw [UInt64.toNat_and, pred]
  exact Nat.lt_of_le_of_lt Nat.and_le_right (Nat.sub_lt pos Nat.one_pos)

/-- The positions of the set bits of a word, ascending.  The lowest one is
cleared until none is left. -/
def setBits (w : UInt64) : List Nat :=
  if h : w = 0 then []
  else w.toBitVec.ctz.toNat :: setBits (w &&& (w - 1))
termination_by w.toNat
decreasing_by exact toNat_clearLowest_lt h

namespace Words

variable {n : Nat}

/-- No numbers. -/
def empty (n : Nat) : Words n := Vector.replicate _ 0

/-- The set with one more number, if there is a word for it. -/
def insert (ws : Words n) (j : Nat) : Except Failure (Words n) :=
  if h : j / 64 < wordsFor n then
    .ok (ws.set (j / 64) (ws[j / 64] ||| 1 <<< (j % 64).toUInt64))
  else .error (.crash none)

/-- The numbers of either set. -/
def union (ws others : Words n) : Words n := Vector.zipWith (· ||| ·) ws others

/-- The numbers below `n` in the set, ascending. -/
def bits (ws : Words n) : List Nat :=
  ws.toList.zipIdx.flatMap fun (w, k) =>
    ((setBits w).map fun bit => k * 64 + bit).filter (· < n)

end Words

end LoopDiff
