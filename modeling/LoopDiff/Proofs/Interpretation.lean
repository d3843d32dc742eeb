import LoopDiff.Proofs.Elementary
import LoopDiff.Proofs.Yields

/-!
# LoopDiff.Proofs.Interpretation

Values that stand for elements of a ring.

A value may be a number, a dual number or a node of a graph.  An
`Interpretation` says which ring element a value means in a world, and that
the operations on values succeed and mean the operations of the ring.  From
it follow the meanings of the derivative rules, and the interpretation of
dual numbers over the values as dual numbers over the ring
(`Interpretation.dual`).

Values known to be zero are zero; nothing is said of the others.  This is
all that a rule or a sweep may rely on when it leaves a step out.

The derivative of an integer power needs the next lower exponent.  How often
an exponent can be lowered (`Exponent.Lowers`) therefore decides how often a
power can be differentiated.
-/

namespace LoopDiff

open Elementary (byLeft byRight slopeUnary slopePowi)

/-! ## Exponents -/

namespace Exponent

variable {m : Type → Type} [Monad m] [MonadExceptOf Failure m] {k : Nat} {n : Int32}

/-- The exponent can be lowered `k` times. -/
def Lowers (k : Nat) (n : Int32) : Prop := Int32.minValue.toInt + k ≤ n.toInt

instance (k : Nat) (n : Int32) : Decidable (Lowers k n) :=
  inferInstanceAs (Decidable (_ ≤ _))

theorem Lowers.mono {l : Nat} (h : Lowers l n) (le : k ≤ l) : Lowers k n := by
  unfold Lowers at *
  omega

theorem lowers_zero : Lowers 0 n := by
  simpa [Lowers] using n.minValue_le_toInt

theorem lowers_one_iff : Lowers 1 n ↔ n ≠ Int32.minValue := by
  rw [Lowers, Ne, ← Int32.toInt_inj]
  have := n.minValue_le_toInt
  omega

/-- Below the least exponent there is none. -/
theorem pred_minValue : (pred Int32.minValue : m Int32) = throw (.crash none) := if_pos rfl

theorem pred_eq (h : Lowers (k + 1) n) :
    (pred n : m Int32) = pure (n - 1) ∧ (n - 1).toInt = n.toInt - 1 ∧ Lowers k (n - 1) := by
  have lower : (n - 1).toInt = n.toInt - 1 := by
    rw [Lowers, Int32.toInt_minValue] at h
    have := n.toInt_lt
    rw [Int32.toInt_sub, Int32.toInt_one, Int.bmod_eq_of_le] <;> omega
  refine ⟨if_neg (lowers_one_iff.mp (h.mono (Nat.le_add_left 1 k))), lower, ?_⟩
  rw [Lowers] at *
  omega

end Exponent

/-! ## Interpretations -/

/-- Values of type `T`, with operations in `m`, as elements of `R`.  An
exponent is one that integer powers can be formed with. -/
structure Interpretation (m : Type → Type) {W : Type} (F T R : Type) [Monad m] [Worlds m W]
    [Preorder W] [Scalar F] [Constants F T] [Arith m T] [Elementary R] [Embeds F R] where
  means : W → T → R → Prop
  exponent : Int32 → Prop
  later {w w' : W} {x : T} {r : R} : w ≤ w' → means w x r → means w' x r
  ofBase (w : W) (x : F) : means w (Constants.ofBase x) (embed x)
  isZero {w : W} {x : T} {r : R} : means w x r → Constants.isZero x = true → r = 0
  binary (op : Binary) {w : W} {x y : T} {r s : R} : means w x r → means w y s →
    Yields (Arith.binary op x y : m T) w fun z w' => means w' z (Elementary.binary op r s)
  unary (op : Unary) {w : W} {x : T} {r : R} : means w x r →
    Yields (Arith.unary op x : m T) w fun z w' => means w' z (Elementary.unary op r)
  powi {w : W} {x : T} {r : R} {n : Int32} : exponent n → means w x r →
    Yields (Arith.powi x n : m T) w fun z w' => means w' z (Elementary.powi r n.toInt)

/-- Plain numbers, read in a ring. -/
def Interpretation.plain (m : Type → Type) {W : Type} (F R : Type) [Monad m] [Worlds m W]
    [Preorder W] [Scalar F] [Elementary R] [Reading F R] : Interpretation m F F R where
  means _ x r := embed x = r
  exponent _ := True
  later _ h := h
  ofBase _ _ := rfl
  isZero h zero := h ▸ Reading.embed_isZero zero
  binary op := by
    rintro w x y r s rfl rfl
    exact yields_pure (Reading.embed_binary op x y)
  unary op := by
    rintro w x r rfl
    exact yields_pure (Reading.embed_unary op x)
  powi := by
    rintro w x r n - rfl
    exact yields_pure (Reading.embed_powi x n)

namespace Interpretation

variable {m : Type → Type} {W F T R : Type} [Monad m] [Worlds m W] [Preorder W]
  [Scalar F] [Constants F T] [Arith m T] [Elementary R] [Embeds F R]
  (I : Interpretation m F T R) {w : W} {x y : T} {r s : R}

theorem zero (w : W) : I.means w Constants.zero 0 :=
  Embeds.embed_zero (F := F) (R := R) ▸ I.ofBase w Scalar.zero

theorem one (w : W) : I.means w Constants.one 1 :=
  Embeds.embed_one (F := F) (R := R) ▸ I.ofBase w Scalar.one

theorem ofInt (w : W) (n : Int) : I.means w (Constants.ofInt n) n :=
  Embeds.embed_ofInt (F := F) (R := R) n ▸ I.ofBase w (Scalar.ofInt n)

theorem add (hx : I.means w x r) (hy : I.means w y s) :
    Yields (Arith.add x y : m T) w fun z w' => I.means w' z (r + s) :=
  I.binary .add hx hy

theorem sub (hx : I.means w x r) (hy : I.means w y s) :
    Yields (Arith.sub x y : m T) w fun z w' => I.means w' z (r - s) :=
  I.binary .sub hx hy

theorem mul (hx : I.means w x r) (hy : I.means w y s) :
    Yields (Arith.mul x y : m T) w fun z w' => I.means w' z (r * s) :=
  I.binary .mul hx hy

theorem div (hx : I.means w x r) (hy : I.means w y s) :
    Yields (Arith.div x y : m T) w fun z w' => I.means w' z (r * Elementary.unary .recip s) :=
  I.binary .div hx hy

theorem pow (hx : I.means w x r) (hy : I.means w y s) :
    Yields (Arith.pow x y : m T) w fun z w' => I.means w' z (Elementary.pow r s) :=
  I.binary .pow hx hy

theorem neg (hx : I.means w x r) :
    Yields (Arith.neg x : m T) w fun z w' => I.means w' z (-r) :=
  (I.unary .neg hx).mono fun _ _ _ h => Elementary.unary_neg r ▸ h

theorem recip (hx : I.means w x r) :
    Yields (Arith.recip x : m T) w fun z w' => I.means w' z (Elementary.unary .recip r) :=
  I.unary .recip hx

/-! ## Derivative rules -/

/-- The rules for binary operations give the partial derivatives. -/
theorem derivative_binary (op : Binary) {v : T} (hx : I.means w x r) (hy : I.means w y s)
    (hv : I.means w v (Elementary.binary op r s)) :
    Yields (Derivative.binary op x y v : m (T × T)) w fun d w' =>
      I.means w' d.1 (byLeft op r s) ∧ I.means w' d.2 (byRight op r s) := by
  cases op with
  | add => exact yields_pure ⟨I.one w, I.one w⟩
  | sub =>
      refine (I.neg (I.one w)).bind fun d w₁ le₁ hd => ?_
      exact yields_pure ⟨I.one w₁, hd⟩
  | mul => exact yields_pure ⟨hy, hx⟩
  | div =>
      refine (I.recip hy).bind fun inv w₁ le₁ hinv => ?_
      refine (I.mul (I.later le₁ hx) hinv).bind fun a w₂ le₂ ha => ?_
      refine (I.mul ha (I.later le₂ hinv)).bind fun b w₃ le₃ hb => ?_
      refine (I.neg hb).bind fun d w₄ le₄ hd => ?_
      exact yields_pure ⟨I.later (le₂.trans (le₃.trans le₄)) hinv, hd⟩
  | pow =>
      refine (I.sub hy (I.one w)).bind fun e w₁ le₁ he => ?_
      refine (I.pow (I.later le₁ hx) he).bind fun p w₂ le₂ hp => ?_
      refine (I.mul (I.later (le₁.trans le₂) hy) hp).bind fun dx w₃ le₃ hdx => ?_
      have le := le₁.trans (le₂.trans le₃)
      refine (I.unary .ln (I.later le hx)).bind fun ln w₄ le₄ hln => ?_
      refine (I.mul (I.later (le.trans le₄) hv) hln).bind fun dy w₅ le₅ hdy => ?_
      exact yields_pure ⟨I.later (le₄.trans le₅) hdx, hdy⟩

/-- The rules for unary operations give the derivative. -/
theorem derivative_unary (op : Unary) {v : T} (hx : I.means w x r)
    (hv : I.means w v (Elementary.unary op r)) :
    Yields (Derivative.unary op x v : m T) w fun d w' => I.means w' d (slopeUnary op r) := by
  cases op with
  | neg => exact I.neg (I.one w)
  | recip =>
      refine (I.mul hv hv).bind fun a w₁ le₁ ha => ?_
      exact I.neg ha
  | sqrt =>
      refine (I.add (I.one w) (I.one w)).bind fun two w₁ le₁ htwo => ?_
      refine (I.mul htwo (I.later le₁ hv)).bind fun a w₂ le₂ ha => ?_
      exact I.recip ha
  | exp => exact yields_pure hv
  | ln => exact I.recip hx
  | sin => exact I.unary .cos hx
  | cos =>
      refine (I.unary .sin hx).bind fun a w₁ le₁ ha => ?_
      exact I.neg ha
  | tan =>
      refine (I.mul hv hv).bind fun a w₁ le₁ ha => ?_
      exact I.add (I.one w₁) ha
  | sinh => exact I.unary .cosh hx
  | cosh => exact I.unary .sinh hx
  | tanh =>
      refine (I.mul hv hv).bind fun a w₁ le₁ ha => ?_
      exact I.sub (I.one w₁) ha

variable [MonadExceptOf Failure m]

/-- The exponent can be lowered, to one that powers can be formed with. -/
def lowers (n : Int32) : Prop :=
  ∀ w, Yields (Exponent.pred n : m Int32) w fun k _ => k.toInt = n.toInt - 1 ∧ I.exponent k

theorem derivative_powi {n : Int32} (hn : I.lowers n) (hx : I.means w x r) :
    Yields (Derivative.powi x n : m T) w fun d w' => I.means w' d (slopePowi r n.toInt) := by
  refine (hn w).bind fun k w₁ le₁ ⟨hk, exponent⟩ => ?_
  refine (I.powi exponent (I.later le₁ hx)).bind fun p w₂ le₂ hp => ?_
  rw [slopePowi, ← hk]
  exact I.mul (I.ofInt w₂ n.toInt) hp

/-! ## Dual numbers -/

omit [MonadExceptOf Failure m] in
/-- What a dual number means, part by part. -/
def meansDual (w : W) (x : Dual T) (r : Dual R) : Prop :=
  I.means w x.re r.re ∧ I.means w x.eps r.eps

omit [MonadExceptOf Failure m] in
theorem chain {x : Dual T} {t : R} {value derivative : T} {v d : R}
    (hx : I.means w x.eps t) (hv : I.means w value v) (hd : I.means w derivative d) :
    Yields (Dual.chain x value derivative : m (Dual T)) w fun z w' =>
      I.meansDual w' z ⟨v, t * d⟩ := by
  refine (I.mul hx hd).bind fun e w₁ le₁ he => ?_
  exact yields_pure ⟨I.later le₁ hv, he⟩

omit [MonadExceptOf Failure m] in
theorem dual_binary [PowerRule R] (op : Binary) {x y : Dual T} {r s : Dual R} (hx : I.meansDual w x r)
    (hy : I.meansDual w y s) :
    Yields (Dual.binary op x y : m (Dual T)) w fun z w' =>
      I.meansDual w' z (Elementary.binary op r s) := by
  obtain ⟨hxr, hxe⟩ := hx
  obtain ⟨hyr, hye⟩ := hy
  cases op with
  | add =>
      refine (I.add hxr hyr).bind fun a w₁ le₁ ha => ?_
      refine (I.add (I.later le₁ hxe) (I.later le₁ hye)).bind fun b w₂ le₂ hb => ?_
      exact yields_pure ⟨I.later le₂ ha, hb⟩
  | sub =>
      refine (I.sub hxr hyr).bind fun a w₁ le₁ ha => ?_
      refine (I.sub (I.later le₁ hxe) (I.later le₁ hye)).bind fun b w₂ le₂ hb => ?_
      exact yields_pure ⟨I.later le₂ ha, hb⟩
  | mul =>
      refine (I.mul hxr hyr).bind fun a w₁ le₁ ha => ?_
      refine (I.mul (I.later le₁ hxr) (I.later le₁ hye)).bind fun b w₂ le₂ hb => ?_
      have le := le₁.trans le₂
      refine (I.mul (I.later le hxe) (I.later le hyr)).bind fun c w₃ le₃ hc => ?_
      refine (I.add (I.later le₃ hb) hc).bind fun d w₄ le₄ hd => ?_
      exact yields_pure ⟨I.later (le₂.trans (le₃.trans le₄)) ha, hd⟩
  | div =>
      refine (I.div hxr hyr).bind fun a w₁ le₁ ha => ?_
      refine (I.mul ha (I.later le₁ hye)).bind fun b w₂ le₂ hb => ?_
      have le := le₁.trans le₂
      refine (I.sub (I.later le hxe) hb).bind fun c w₃ le₃ hc => ?_
      refine (I.div hc (I.later (le.trans le₃) hyr)).bind fun d w₄ le₄ hd => ?_
      refine yields_pure ⟨I.later (le₂.trans (le₃.trans le₄)) ha, ?_⟩
      have eq : (Elementary.binary .div r s).eps =
          (r.eps - r.re * Elementary.unary .recip s.re * s.eps)
            * Elementary.unary .recip s.re := by
        simp only [Dual.eps_binary, byLeft, byRight]
        ring
      exact eq ▸ hd
  | pow =>
      simp only [Dual.binary, Dual.power]
      refine (I.pow hxr hyr).bind fun v w₁ le₁ hv => ?_
      by_cases zero : Constants.isZero y.eps = true
      · rw [if_pos zero]
        have hs : s.eps = 0 := I.isZero hye zero
        refine (I.sub (I.later le₁ hyr) (I.one w₁)).bind fun e w₂ le₂ he => ?_
        have le := le₁.trans le₂
        refine (I.pow (I.later le hxr) he).bind fun p w₃ le₃ hp => ?_
        have le := le.trans le₃
        refine (I.mul (I.later le hyr) hp).bind fun d w₄ le₄ hd => ?_
        refine (I.chain (I.later (le.trans le₄) hxe)
          (I.later (le₂.trans (le₃.trans le₄)) hv) hd).mono fun z w₅ le₅ hz => ?_
        have eq : Elementary.binary .pow r s =
            ⟨Elementary.pow r.re s.re, r.eps * (s.re * Elementary.pow r.re (s.re - 1))⟩ := by
          ext
          · rfl
          · simp [hs, byLeft]
        exact eq ▸ hz
      · rw [if_neg zero]
        refine (I.mul (I.later le₁ hyr) (I.later le₁ hxe)).bind fun a w₂ le₂ ha => ?_
        have le := le₁.trans le₂
        refine (I.div ha (I.later le hxr)).bind fun b w₃ le₃ hb => ?_
        have le := le.trans le₃
        refine (I.unary .ln (I.later le hxr)).bind fun ln w₄ le₄ hln => ?_
        have le := le.trans le₄
        refine (I.mul (I.later le hye) hln).bind fun c w₅ le₅ hc => ?_
        refine (I.add (I.later (le₄.trans le₅) hb) hc).bind fun d w₆ le₆ hd => ?_
        have le' := le₂.trans (le₃.trans (le₄.trans (le₅.trans le₆)))
        refine (I.mul (I.later le' hv) hd).bind fun e w₇ le₇ he => ?_
        refine yields_pure ⟨I.later (le'.trans le₇) hv, ?_⟩
        have eq : (Elementary.binary .pow r s).eps = Elementary.pow r.re s.re *
            (s.re * r.eps * Elementary.unary .recip r.re
              + s.eps * Elementary.unary .ln r.re) := by
          simp only [Dual.eps_binary, Elementary.byLeft_pow, byRight]
          ring
        exact eq ▸ he

omit [MonadExceptOf Failure m] in
theorem dual_unary (op : Unary) {x : Dual T} {r : Dual R} (hx : I.meansDual w x r) :
    Yields (Dual.unary op x : m (Dual T)) w fun z w' =>
      I.meansDual w' z (Elementary.unary op r) := by
  obtain ⟨hr, he⟩ := hx
  cases op with
  | neg =>
      refine (I.neg hr).bind fun a w₁ le₁ ha => ?_
      refine (I.neg (I.later le₁ he)).bind fun b w₂ le₂ hb => ?_
      have eq : Elementary.unary .neg r = ⟨-r.re, -r.eps⟩ := Elementary.unary_neg r
      exact yields_pure (eq ▸ ⟨I.later le₂ ha, hb⟩)
  | recip =>
      refine (I.recip hr).bind fun a w₁ le₁ ha => ?_
      refine (I.mul ha ha).bind fun b w₂ le₂ hb => ?_
      refine (I.neg hb).bind fun c w₃ le₃ hc => ?_
      exact I.chain (I.later (le₁.trans (le₂.trans le₃)) he) (I.later (le₂.trans le₃) ha) hc
  | sqrt =>
      refine (I.unary .sqrt hr).bind fun a w₁ le₁ ha => ?_
      refine (I.add (I.one w₁) (I.one w₁)).bind fun two w₂ le₂ htwo => ?_
      refine (I.mul htwo (I.later le₂ ha)).bind fun b w₃ le₃ hb => ?_
      refine (I.recip hb).bind fun c w₄ le₄ hc => ?_
      have le := le₂.trans (le₃.trans le₄)
      exact I.chain (I.later (le₁.trans le) he) (I.later le ha) hc
  | exp =>
      refine (I.unary .exp hr).bind fun a w₁ le₁ ha => ?_
      exact I.chain (I.later le₁ he) ha ha
  | ln =>
      refine (I.unary .ln hr).bind fun a w₁ le₁ ha => ?_
      refine (I.recip (I.later le₁ hr)).bind fun b w₂ le₂ hb => ?_
      exact I.chain (I.later (le₁.trans le₂) he) (I.later le₂ ha) hb
  | sin =>
      refine (I.unary .sin hr).bind fun a w₁ le₁ ha => ?_
      refine (I.unary .cos (I.later le₁ hr)).bind fun b w₂ le₂ hb => ?_
      exact I.chain (I.later (le₁.trans le₂) he) (I.later le₂ ha) hb
  | cos =>
      refine (I.unary .cos hr).bind fun a w₁ le₁ ha => ?_
      refine (I.unary .sin (I.later le₁ hr)).bind fun b w₂ le₂ hb => ?_
      refine (I.neg hb).bind fun c w₃ le₃ hc => ?_
      exact I.chain (I.later (le₁.trans (le₂.trans le₃)) he) (I.later (le₂.trans le₃) ha) hc
  | tan =>
      refine (I.unary .tan hr).bind fun a w₁ le₁ ha => ?_
      refine (I.mul ha ha).bind fun b w₂ le₂ hb => ?_
      refine (I.add (I.one w₂) hb).bind fun c w₃ le₃ hc => ?_
      exact I.chain (I.later (le₁.trans (le₂.trans le₃)) he) (I.later (le₂.trans le₃) ha) hc
  | sinh =>
      refine (I.unary .sinh hr).bind fun a w₁ le₁ ha => ?_
      refine (I.unary .cosh (I.later le₁ hr)).bind fun b w₂ le₂ hb => ?_
      exact I.chain (I.later (le₁.trans le₂) he) (I.later le₂ ha) hb
  | cosh =>
      refine (I.unary .cosh hr).bind fun a w₁ le₁ ha => ?_
      refine (I.unary .sinh (I.later le₁ hr)).bind fun b w₂ le₂ hb => ?_
      exact I.chain (I.later (le₁.trans le₂) he) (I.later le₂ ha) hb
  | tanh =>
      refine (I.unary .tanh hr).bind fun a w₁ le₁ ha => ?_
      refine (I.mul ha ha).bind fun b w₂ le₂ hb => ?_
      refine (I.sub (I.one w₂) hb).bind fun c w₃ le₃ hc => ?_
      exact I.chain (I.later (le₁.trans (le₂.trans le₃)) he) (I.later (le₂.trans le₃) ha) hc

theorem dual_powi {x : Dual T} {r : Dual R} {n : Int32} (hn : I.exponent n)
    (hn' : I.lowers n) (hx : I.meansDual w x r) :
    Yields (Dual.powi x n : m (Dual T)) w fun z w' =>
      I.meansDual w' z (Elementary.powi r n.toInt) := by
  obtain ⟨hr, he⟩ := hx
  by_cases zero : n = 0
  · have eq : Elementary.powi r n.toInt = 1 := by
      rw [zero, Int32.toInt_zero, Elementary.powi_zero]
    rw [Dual.powi, if_pos zero, eq]
    exact yields_pure ⟨I.one w, I.zero w⟩
  · rw [Dual.powi, if_neg zero]
    refine (I.powi hn hr).bind fun a w₁ le₁ ha => ?_
    refine (I.derivative_powi hn' (I.later le₁ hr)).bind fun b w₂ le₂ hb => ?_
    exact I.chain (I.later (le₁.trans le₂) he) (I.later le₂ ha) hb

/-- Dual numbers over the values as dual numbers over the ring.  The
derivative of an integer power needs the next lower exponent too. -/
def dual [PowerRule R] : Interpretation m F (Dual T) (Dual R) where
  means := I.meansDual
  exponent n := I.exponent n ∧ I.lowers n
  later le h := ⟨I.later le h.1, I.later le h.2⟩
  ofBase w x := ⟨I.ofBase w x, I.zero w⟩
  isZero h zero := by
    obtain ⟨re, eps⟩ := (Bool.and_eq_true _ _).mp zero
    exact Dual.ext (I.isZero h.1 re) (I.isZero h.2 eps)
  binary op := fun hx hy => I.dual_binary op hx hy
  unary op := fun hx => I.dual_unary op hx
  powi hn := I.dual_powi hn.1 hn.2

/-! ## Exponents that are low enough -/

omit [MonadExceptOf Failure m] in
/-- Powers can be formed with every exponent that can be lowered `k`
times. -/
def Takes (k : Nat) : Prop := ∀ n, Exponent.Lowers k n → I.exponent n

variable {I} {k : Nat}

theorem Takes.lowers (takes : I.Takes k) {n : Int32} (hn : Exponent.Lowers (k + 1) n) :
    I.lowers n := by
  obtain ⟨eq, lower, hn'⟩ := Exponent.pred_eq (m := m) hn
  intro w
  rw [eq]
  exact yields_pure ⟨lower, takes _ hn'⟩

/-- Differentiating lowers the exponents by one more. -/
theorem Takes.dual [PowerRule R] (takes : I.Takes k) : I.dual.Takes (k + 1) :=
  fun n hn => ⟨takes n (hn.mono (Nat.le_succ k)), takes.lowers hn⟩

section

variable (takes : I.Takes 0)
  (crash : ∀ (w : W) (Q : Int32 → W → Prop), Yields (throw (.crash none) : m Int32) w Q)

include takes crash

/-- Where a crash is allowed, every exponent can be lowered. -/
theorem Takes.lowers_of_crash (n : Int32) : I.lowers n := by
  by_cases least : n = Int32.minValue
  · intro w
    rw [least, Exponent.pred_minValue]
    exact crash w _
  · exact Takes.lowers (fun n _ => takes n Exponent.lowers_zero)
      (Exponent.lowers_one_iff.mpr least)

theorem Takes.dual_of_crash [PowerRule R] : I.dual.Takes 0 :=
  fun n hn => ⟨takes n hn, takes.lowers_of_crash crash n⟩

end

omit [MonadExceptOf Failure m] in
/-- Plain numbers have every power. -/
theorem takes_plain {F R : Type} [Scalar F] [Elementary R] [Reading F R] :
    (Interpretation.plain m F R).Takes 0 :=
  fun _ _ => trivial

end Interpretation

end LoopDiff
