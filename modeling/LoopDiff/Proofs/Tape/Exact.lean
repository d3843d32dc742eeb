import LoopDiff.Proofs.Interpretation
import LoopDiff.Proofs.Tape.Semantics
import LoopDiff.Tape.Sweep

/-!
# LoopDiff.Proofs.Tape.Exact

Numbers that are elements of a ring themselves.

Numbers in exact arithmetic are, and so are the dual numbers over them, with
one exception: an integer power of dual numbers needs the next lower exponent,
and crashes where there is none (`ExactPowers.dual`).  So every operation of a
tape on such numbers succeeds with the value in the ring, or is a power that
crashes, whatever the numbers are.  A run of a tape that succeeds shows that
the tape has no such power (`Tape.exponents_of_eval`).
-/

namespace LoopDiff

variable {F : Type}

/-! ## Operations -/

/-- Numbers whose operations are those of a ring. -/
class ExactNumber (F R : Type) [Scalar F] [Elementary R] [Embeds F R] [Constants F R]
    [Arith (Except Failure) R] : Prop where
  ofBase_eq (x : F) : (Constants.ofBase x : R) = embed x
  isZero_iff (x : R) : Constants.isZero x = true ↔ x = 0
  binary_eq (op : Binary) (x y : R) :
    (Arith.binary op x y : Except Failure R) = .ok (Elementary.binary op x y)
  unary_eq (op : Unary) (x : R) :
    (Arith.unary op x : Except Failure R) = .ok (Elementary.unary op x)

/-- Numbers whose integer powers are those of a ring where the exponent can be
lowered `k` times, and crash where it cannot. -/
structure ExactPowers (R : Type) (k : Nat) [Elementary R] [Arith (Except Failure) R] : Prop where
  powi_eq (x : R) {n : Int32} :
    Exponent.Lowers k n → (Arith.powi x n : Except Failure R) = .ok (Elementary.powi x n.toInt)
  powi_crash (x : R) {n : Int32} :
    ¬Exponent.Lowers k n → (Arith.powi x n : Except Failure R) = .error (.crash none)

section

variable [Field F] [Scalar F] [ExactScalar F]

instance : ExactNumber F F where
  ofBase_eq _ := rfl
  isZero_iff := ExactScalar.isZero_iff
  binary_eq op x y := congrArg Except.ok (ExactScalar.binary_eq op x y)
  unary_eq _ _ := rfl

theorem exactPowers : ExactPowers F 0 where
  powi_eq x n _ := congrArg Except.ok (ExactScalar.powi_eq x n)
  powi_crash _ _ low := absurd Exponent.lowers_zero low

end

section

variable {R : Type} {k : Nat} {n : Int32} [Scalar F] [Elementary R] [Embeds F R] [Constants F R]
  [Arith (Except Failure) R] [ExactNumber F R]

variable (F R) in
/-- Numbers stand for themselves. -/
def Interpretation.itself : Interpretation (Except Failure) F R R where
  means _ x r := x = r
  exponent n := ∀ x : R, (Arith.powi x n : Except Failure R) = .ok (Elementary.powi x n.toInt)
  later _ h := h
  ofBase _ x := ExactNumber.ofBase_eq x
  isZero := by
    rintro w x _ rfl zero
    exact (ExactNumber.isZero_iff (F := F) x).mp zero
  binary op := by
    rintro w x y _ _ rfl rfl
    exact ⟨_, ExactNumber.binary_eq (F := F) op x y, le_rfl, rfl⟩
  unary op := by
    rintro w x _ rfl
    exact ⟨_, ExactNumber.unary_eq (F := F) op x, le_rfl, rfl⟩
  powi := by
    rintro w x _ n hn rfl
    exact ⟨_, hn x, le_rfl, rfl⟩

theorem ExactPowers.takes_itself (powers : ExactPowers R k) :
    (Interpretation.itself F R).Takes k :=
  fun _ hn x => powers.powi_eq x hn

theorem ExactNumber.zero_eq : (Constants.zero : R) = 0 :=
  (ExactNumber.ofBase_eq (F := F) (R := R) Scalar.zero).trans Embeds.embed_zero

instance [PowerRule R] : ExactNumber F (Dual R) where
  ofBase_eq x := Dual.ext (ExactNumber.ofBase_eq x) ExactNumber.zero_eq
  isZero_iff x := by
    refine (Bool.and_eq_true _ _).to_iff.trans ?_
    rw [ExactNumber.isZero_iff (F := F), ExactNumber.isZero_iff (F := F)]
    exact ⟨fun h => Dual.ext h.1 h.2, fun h => h ▸ ⟨rfl, rfl⟩⟩
  binary_eq op x y := by
    obtain ⟨z, run, -, eq⟩ := (Interpretation.itself F R).dual.binary op (w := ()) (x := x) (y := y)
      (r := x) (s := y) ⟨rfl, rfl⟩ ⟨rfl, rfl⟩
    exact run.trans (congrArg Except.ok (Dual.ext eq.1 eq.2))
  unary_eq op x := by
    obtain ⟨z, run, -, eq⟩ := (Interpretation.itself F R).dual.unary op (w := ()) (x := x)
      (r := x) ⟨rfl, rfl⟩
    exact run.trans (congrArg Except.ok (Dual.ext eq.1 eq.2))

namespace ExactPowers

include F in
/-- The derivative of a power whose exponent can be lowered once more. -/
theorem derivative_eq (powers : ExactPowers R k) (x : R) (hn : Exponent.Lowers (k + 1) n) :
    (Derivative.powi x n : Except Failure R) = .ok (Elementary.slopePowi x n.toInt) := by
  obtain ⟨d, run, -, rfl⟩ := (Interpretation.itself F R).derivative_powi (w := ())
    (powers.takes_itself.lowers hn) (rfl : x = x)
  exact run

include F in
omit [Embeds F R] [ExactNumber F R] in
/-- The derivative of any other power crashes. -/
theorem derivative_crash (powers : ExactPowers R k) (x : R) (low : ¬Exponent.Lowers (k + 1) n) :
    (Derivative.powi x n : Except Failure R) = .error (.crash none) := by
  by_cases least : n = Int32.minValue
  · rw [Derivative.powi, least, Exponent.pred_minValue]
    rfl
  · obtain ⟨pred, lower, -⟩ :=
      Exponent.pred_eq (m := Except Failure) (k := 0) (Exponent.lowers_one_iff.mpr least)
    have low' : ¬Exponent.Lowers k (n - 1) := by
      unfold Exponent.Lowers at *
      omega
    rw [Derivative.powi, pred, pure_bind, powers.powi_crash x low']
    rfl

include F in
/-- The powers of dual numbers, which hold a derivative. -/
theorem dual [PowerRule R] (powers : ExactPowers R 0) : ExactPowers (Dual R) 1 where
  powi_eq x n hn := by
    obtain ⟨z, run, -, eq⟩ := (Interpretation.itself F R).dual.powi (w := ()) (x := x) (r := x)
      (powers.takes_itself.dual n hn) ⟨rfl, rfl⟩
    exact run.trans (congrArg Except.ok (Dual.ext eq.1 eq.2))
  powi_crash x n low := by
    have nonzero : n ≠ 0 := by
      rintro rfl
      exact low (by decide)
    show Dual.powi x n = _
    rw [Dual.powi, if_neg nonzero, powers.powi_eq x.re Exponent.lowers_zero,
      powers.derivative_crash (F := F) x.re low]
    rfl

end ExactPowers

end

/-! ## Runs that succeed -/

namespace Tape

variable {R : Type} {k : Nat} {t : Tape F} [Scalar F] [Constants F R] [Elementary R]
  [Arith (Except Failure) R]

/-- A run that succeeds has computed all powers of the tape. -/
theorem exponents_of_eval (powers : ExactPowers R k) {us vs : List R}
    (h : (t.eval us : Except Failure (List R)) = .ok vs) : t.Exponents (Exponent.Lowers k) := by
  obtain ⟨values, sweep, -⟩ := bind_eq_ok h
  obtain ⟨_, -, fold⟩ := bind_eq_ok sweep
  intro i arg n hn
  have mem : Entry.powi arg n ∈ t.entries.toList :=
    Array.mem_toList_iff.mpr (Array.mem_of_getElem? hn)
  obtain ⟨values, _, step⟩ := exists_of_foldlM fold mem
  obtain ⟨v, forward, -⟩ := bind_eq_ok step
  obtain ⟨x, -, power⟩ := bind_eq_ok forward
  by_contra low
  cases power.symm.trans (powers.powi_crash x low)

end Tape

end LoopDiff
