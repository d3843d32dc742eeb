import LoopDiff.Proofs.Interpretation
import LoopDiff.Proofs.Tape.Semantics

/-!
# LoopDiff.Proofs.Tape.Lenient

Runs that give the right result or crash.

A derivative rule crashes at an exponent that cannot be lowered.  Whether a
run comes across such a rule depends on its values, since a reverse sweep
skips the entries without adjoint.  So a condition on the exponents of a
tape is enough for a run to succeed, but it is not needed, and a run that
succeeds without it is right all the same.

`Lenient` is `Except Failure` with this one failure allowed: `Ends c w Q`
says there that `c` crashes or has a result that satisfies `Q`.  The lemmas
on sweeps ask for a monad with worlds and nothing else, so they hold in both
readings, and in this one no exponent is too low.  Put together
(`Tape.returns`), the two readings say of every run that it returns the
right value, or else crashes at an exponent that is too low
(`Tape.Returns`).
-/

namespace LoopDiff

/-- Computations that may crash. -/
def Lenient (α : Type) : Type := Except Failure α

namespace Lenient

instance : Monad Lenient := inferInstanceAs (Monad (Except Failure))

instance : LawfulMonad Lenient := inferInstanceAs (LawfulMonad (Except Failure))

instance : MonadExceptOf Failure Lenient :=
  inferInstanceAs (MonadExceptOf Failure (Except Failure))

instance : Worlds Lenient Unit where
  Ends c _ Q := (∃ x, c = Except.ok x ∧ Q x ()) ∨ c = Except.error (.crash none)
  ends_pure h := .inl ⟨_, rfl, h⟩
  ends_bind := by
    rintro α β c f w P Q (⟨x, rfl, hx⟩ | rfl) h
    · exact h x () hx
    · exact .inr rfl
  ends_forall := by
    intro ι _ α c w Q h
    rcases h (Classical.arbitrary ι) with ⟨x, hc, -⟩ | crash
    · refine .inl ⟨x, hc, fun i => ?_⟩
      rcases h i with ⟨y, hc', hy⟩ | crash
      · cases hc.symm.trans hc'
        exact hy
      · cases hc.symm.trans crash
    · exact .inr crash

variable {α : Type} {Q : α → Unit → Prop}

/-- A crash is allowed. -/
theorem yields_crash : Yields (throw (.crash none) : Lenient α) () Q := .inr rfl

theorem ok_or_crash {c : Except Failure α} (h : Yields (m := Lenient) c () Q) :
    (∃ x, c = .ok x ∧ Q x ()) ∨ c = .error (.crash none) := by
  rcases h with ⟨x, hc, -, hx⟩ | crash
  · exact .inl ⟨x, hc, hx⟩
  · exact .inr crash

end Lenient

namespace Interpretation

variable {F T R : Type} [Scalar F] [Constants F T] [Arith Lenient T] [Elementary R] [Embeds F R]
  {I : Interpretation Lenient F T R}

theorem Takes.lowers_lenient (takes : I.Takes 0) (n : Int32) : I.lowers n :=
  takes.lowers_of_crash (fun _ _ => Lenient.yields_crash) n

theorem Takes.dual_lenient [PowerRule R] (takes : I.Takes 0) : I.dual.Takes 0 :=
  takes.dual_of_crash fun _ _ => Lenient.yields_crash

end Interpretation

namespace Tape

variable {F α β : Type} {t : Tape F} {k : Nat} {c : Except Failure α} {P Q : α → Prop}

/-- The computation returns a value with a property, or else it crashes at an
exponent of the tape that cannot be lowered `k` times. -/
def Returns (t : Tape F) (k : Nat) (c : Except Failure α) (Q : α → Prop) : Prop :=
  (∃ x, c = .ok x ∧ Q x) ∨ c = .error (.crash none) ∧ ¬t.Exponents (Exponent.Lowers k)

/-- What holds in both readings. -/
theorem returns {Q : α → Unit → Prop} (strict : t.Exponents (Exponent.Lowers k) → Yields c () Q)
    (lenient : Yields (m := Lenient) c () Q) : t.Returns k c fun x => Q x () := by
  rcases Lenient.ok_or_crash lenient with found | crash
  · exact .inl found
  · refine .inr ⟨crash, fun exponents => ?_⟩
    obtain ⟨x, hc, -⟩ := exists_ok_of_yields (strict exponents)
    cases hc.symm.trans crash

namespace Returns

theorem of_ok (h : t.Returns k c Q) {x : α} (hc : c = .ok x) : Q x := by
  rcases h with ⟨y, hc', hy⟩ | ⟨crash, -⟩
  · cases hc.symm.trans hc'
    exact hy
  · cases hc.symm.trans crash

theorem mono (h : t.Returns k c P) (imp : ∀ x, P x → Q x) : t.Returns k c Q := by
  rcases h with ⟨x, hc, hx⟩ | crash
  · exact .inl ⟨x, hc, imp x hx⟩
  · exact .inr crash

/-- Exponents that are high enough make the computation return. -/
theorem exists_ok (h : t.Returns k c Q) (exponents : t.Exponents (Exponent.Lowers k)) :
    ∃ x, c = .ok x ∧ Q x :=
  h.resolve_right fun crash => crash.2 exponents

end Returns

end Tape

end LoopDiff
