import LoopDiff.Dual
import Mathlib.Algebra.Field.Basic
import Mathlib.Algebra.Ring.PUnit
import Mathlib.Data.Int.Cast.Lemmas
import Mathlib.Data.Rat.Lemmas
import Mathlib.Tactic.Ring

/-!
# LoopDiff.Proofs.Elementary

Exact arithmetic.

`Elementary R` is a commutative ring with the elementary operations.  The
functions are arbitrary.  A quotient is a product with `recip`, of which
only `recip 1 = 1` is asked, so that `recip 0 = 0` is as good as any other
value.

A statement about derivatives also asks for the law that the derivative of
a power is computed by, `x ^ (y - 1) = x ^ y * recip x` (`PowerRule`).  The
law is inherited by dual numbers, so second derivatives are first
derivatives over `Dual R`, and exchanging the two tangents of
`Dual (Dual R)` is a homomorphism (`Dual.isHom_swap`): second derivatives
are symmetric.

A base number type is read in such a ring (`Reading`).  A type that computes
exactly in a field (`ExactScalar`) is read in that field.  Every type,
floating ones included, is read in the ring with one element, where a
statement about values is a statement about their existence only.
-/

namespace LoopDiff

/-- A commutative ring with the elementary operations. -/
class Elementary (R : Type) extends CommRing R where
  unary : Unary → R → R
  pow : R → R → R
  powi : R → Int → R
  unary_neg (x : R) : unary .neg x = -x
  recip_one : unary .recip 1 = 1
  powi_zero (x : R) : powi x 0 = 1
  powi_one (x : R) : powi x 1 = x

/-- The law that relates the powers with exponents `y` and `y - 1`. -/
class PowerRule (R : Type) [Elementary R] : Prop where
  pow_sub_one (x y : R) :
    Elementary.pow x (y - 1) = Elementary.pow x y * Elementary.unary .recip x

namespace Elementary

variable {R : Type} [Elementary R]

/-- The value of a binary operation. -/
def binary (op : Binary) (x y : R) : R :=
  match op with
  | .add => x + y
  | .sub => x - y
  | .mul => x * y
  | .div => x * unary .recip y
  | .pow => pow x y

/-! ## Partial derivatives -/

/-- The derivative of `binary op x y` by `x`. -/
def byLeft (op : Binary) (x y : R) : R :=
  match op with
  | .add | .sub => 1
  | .mul => y
  | .div => unary .recip y
  | .pow => y * pow x (y - 1)

/-- The derivative of `binary op x y` by `y`. -/
def byRight (op : Binary) (x y : R) : R :=
  match op with
  | .add => 1
  | .sub => -1
  | .mul => x
  | .div => -(x * unary .recip y * unary .recip y)
  | .pow => pow x y * unary .ln x

/-- The derivative of `unary op x` by `x`. -/
def slopeUnary (op : Unary) (x : R) : R :=
  match op with
  | .neg => -1
  | .recip => -(unary .recip x * unary .recip x)
  | .sqrt => unary .recip ((1 + 1) * unary .sqrt x)
  | .exp => unary .exp x
  | .ln => unary .recip x
  | .sin => unary .cos x
  | .cos => -unary .sin x
  | .tan => 1 + unary .tan x * unary .tan x
  | .sinh => unary .cosh x
  | .cosh => unary .sinh x
  | .tanh => 1 - unary .tanh x * unary .tanh x

/-- The derivative of `powi x n` by `x`. -/
def slopePowi (x : R) (n : Int) : R := n * powi x (n - 1)

/-- The rule for a power by its base, as a quotient. -/
theorem byLeft_pow [PowerRule R] (x y : R) :
    byLeft .pow x y = y * (pow x y * unary .recip x) := by
  rw [byLeft, PowerRule.pow_sub_one]

@[simp] theorem slopePowi_zero (x : R) : slopePowi x 0 = 0 := by
  simp [slopePowi]

end Elementary

/-- The numbers of a base type as elements of a ring. -/
class Embeds (F R : Type) [Scalar F] [Elementary R] where
  embed : F → R
  embed_zero : embed Scalar.zero = 0
  embed_one : embed Scalar.one = 1
  embed_ofInt (n : Int) : embed (Scalar.ofInt n) = n

export Embeds (embed)

attribute [simp] Embeds.embed_zero Embeds.embed_one Embeds.embed_ofInt

/-- A base number type that computes as a ring does. -/
class Reading (F R : Type) [Scalar F] [Elementary R] extends Embeds F R where
  embed_binary (op : Binary) (x y : F) :
    embed (Scalar.binary op x y) = Elementary.binary op (embed x) (embed y)
  embed_unary (op : Unary) (x : F) : embed (Scalar.unary op x) = Elementary.unary op (embed x)
  embed_powi (x : F) (n : Int32) :
    embed (Scalar.powi x n) = Elementary.powi (embed x) n.toInt
  embed_isZero {x : F} : Scalar.isZero x = true → embed x = 0
  embed_isOne {x : F} : Scalar.isOne x = true → embed x = 1
  embed_same {x y : F} : Scalar.same x y = true → embed x = embed y

/-! ## Homomorphisms -/

/-- A map that commutes with the elementary operations. -/
structure IsHom (F : Type) {R S : Type} [Scalar F] [Elementary R] [Elementary S] [Embeds F R]
    [Embeds F S] (φ : R → S) : Prop where
  zero : φ 0 = 0
  embed (x : F) : φ (embed x) = embed x
  binary (op : Binary) (x y : R) :
    φ (Elementary.binary op x y) = Elementary.binary op (φ x) (φ y)
  unary (op : Unary) (x : R) : φ (Elementary.unary op x) = Elementary.unary op (φ x)
  powi (x : R) (n : Int) : φ (Elementary.powi x n) = Elementary.powi (φ x) n

theorem IsHom.comp {F R S T : Type} [Scalar F] [Elementary R] [Elementary S] [Elementary T]
    [Embeds F R] [Embeds F S] [Embeds F T] {ψ : S → T} {φ : R → S} (hψ : IsHom F ψ)
    (hφ : IsHom F φ) : IsHom F fun x => ψ (φ x) where
  zero := by rw [hφ.zero, hψ.zero]
  embed x := by rw [hφ.embed, hψ.embed]
  binary op x y := by rw [hφ.binary, hψ.binary]
  unary op x := by rw [hφ.unary, hψ.unary]
  powi x n := by rw [hφ.powi, hψ.powi]

/-! ## Fields -/

/-- A base number type that computes exactly in a field.  Division is that
of the field, in which `0⁻¹ = 0`, and integer powers are those of the
field. -/
class ExactScalar (F : Type) [Field F] [Scalar F] : Prop where
  zero_eq : (Scalar.zero : F) = 0
  one_eq : (Scalar.one : F) = 1
  ofInt_eq (n : Int) : (Scalar.ofInt n : F) = n
  add_eq (x y : F) : Scalar.binary .add x y = x + y
  sub_eq (x y : F) : Scalar.binary .sub x y = x - y
  mul_eq (x y : F) : Scalar.binary .mul x y = x * y
  div_eq (x y : F) : Scalar.binary .div x y = x / y
  neg_eq (x : F) : Scalar.unary .neg x = -x
  recip_eq (x : F) : Scalar.unary .recip x = x⁻¹
  powi_eq (x : F) (n : Int32) : Scalar.powi x n = x ^ n.toInt
  isZero_iff (x : F) : Scalar.isZero x = true ↔ x = 0
  isOne_iff (x : F) : Scalar.isOne x = true ↔ x = 1
  eq_of_same (x y : F) : Scalar.same x y = true → x = y

namespace ExactScalar

variable {F : Type} [Field F] [Scalar F] [ExactScalar F]

instance : Elementary F where
  unary := Scalar.unary
  pow := Scalar.binary .pow
  powi x n := x ^ n
  unary_neg := neg_eq
  recip_one := by rw [recip_eq, inv_one]
  powi_zero := zpow_zero
  powi_one := zpow_one

theorem binary_eq (op : Binary) (x y : F) : Scalar.binary op x y = Elementary.binary op x y := by
  cases op with
  | add => exact add_eq x y
  | sub => exact sub_eq x y
  | mul => exact mul_eq x y
  | div =>
      rw [div_eq, div_eq_mul_inv, ← recip_eq]
      rfl
  | pow => rfl

instance : Reading F F where
  embed := id
  embed_zero := zero_eq
  embed_one := one_eq
  embed_ofInt := ofInt_eq
  embed_binary := binary_eq
  embed_unary _ _ := rfl
  embed_powi := powi_eq
  embed_isZero h := (isZero_iff _).mp h
  embed_isOne h := (isOne_iff _).mp h
  embed_same h := eq_of_same _ _ h

end ExactScalar

/-! ## Rational numbers -/

/-- Exact arithmetic on rational numbers.  An operation without rational
values leaves its argument as it is, and only integral exponents give a
power. -/
instance : Scalar ℚ where
  zero := 0
  one := 1
  ofInt n := n
  binary
    | .add, x, y => x + y
    | .sub, x, y => x - y
    | .mul, x, y => x * y
    | .div, x, y => x / y
    | .pow, x, y => if x = 0 ∨ y.den ≠ 1 then 0 else x ^ y.num
  unary
    | .neg, x => -x
    | .recip, x => x⁻¹
    | _, x => x
  powi x n := x ^ n.toInt
  isZero x := x = 0
  isOne x := x = 1
  same x y := x = y
  typeName := "rational"

instance : ExactScalar ℚ where
  zero_eq := rfl
  one_eq := rfl
  ofInt_eq _ := rfl
  add_eq _ _ := rfl
  sub_eq _ _ := rfl
  mul_eq _ _ := rfl
  div_eq _ _ := rfl
  neg_eq _ := rfl
  recip_eq _ := rfl
  powi_eq _ _ := rfl
  isZero_iff _ := decide_eq_true_iff
  isOne_iff _ := decide_eq_true_iff
  eq_of_same _ _ := of_decide_eq_true

instance : PowerRule ℚ where
  pow_sub_one x y := by
    show (if x = 0 ∨ (y - 1).den ≠ 1 then 0 else x ^ (y - 1).num) =
      (if x = 0 ∨ y.den ≠ 1 then 0 else x ^ y.num) * x⁻¹
    have den : (y - 1).den = y.den := by simp
    by_cases zero : x = 0
    · simp [zero]
    · by_cases integral : y.den = 1
      · have num : (y - 1).num = y.num - 1 := by
          have := congrArg Rat.num (congrArg (· - (1 : ℚ)) (Rat.coe_int_num_of_den_eq_one integral))
          rw [← this, ← Int.cast_one, ← Int.cast_sub, Rat.num_intCast]
        rw [den, num, if_neg (by simp [zero, integral]), if_neg (by simp [zero, integral]),
          zpow_sub_one₀ zero]
      · simp [den, integral]

/-! ## One element -/

instance : Elementary PUnit where
  unary _ _ := ⟨⟩
  pow _ _ := ⟨⟩
  powi _ _ := ⟨⟩
  unary_neg _ := rfl
  recip_one := rfl
  powi_zero _ := rfl
  powi_one _ := rfl

instance : PowerRule PUnit where
  pow_sub_one _ _ := rfl

/-- Nothing is asked of a number type that is read in the one-element
ring. -/
instance {F : Type} [Scalar F] : Reading F PUnit where
  embed _ := ⟨⟩
  embed_zero := rfl
  embed_one := rfl
  embed_ofInt _ := rfl
  embed_binary _ _ _ := rfl
  embed_unary _ _ := rfl
  embed_powi _ _ := rfl
  embed_isZero _ := rfl
  embed_isOne _ := rfl
  embed_same _ := rfl

/-! ## Dual numbers -/

namespace Dual

variable {R : Type}

@[ext] theorem ext {x y : Dual R} (re : x.re = y.re) (eps : x.eps = y.eps) : x = y := by
  cases x; cases y; simp_all

section Ring

variable [CommRing R]

instance : Zero (Dual R) := ⟨⟨0, 0⟩⟩
instance : One (Dual R) := ⟨⟨1, 0⟩⟩
instance : Add (Dual R) := ⟨fun x y => ⟨x.re + y.re, x.eps + y.eps⟩⟩
instance : Neg (Dual R) := ⟨fun x => ⟨-x.re, -x.eps⟩⟩
instance : Sub (Dual R) := ⟨fun x y => ⟨x.re - y.re, x.eps - y.eps⟩⟩
instance : Mul (Dual R) := ⟨fun x y => ⟨x.re * y.re, x.re * y.eps + x.eps * y.re⟩⟩
instance : NatCast (Dual R) := ⟨fun n => ⟨n, 0⟩⟩
instance : IntCast (Dual R) := ⟨fun n => ⟨n, 0⟩⟩

@[simp] theorem re_zero : (0 : Dual R).re = 0 := rfl
@[simp] theorem eps_zero : (0 : Dual R).eps = 0 := rfl
@[simp] theorem re_one : (1 : Dual R).re = 1 := rfl
@[simp] theorem eps_one : (1 : Dual R).eps = 0 := rfl
@[simp] theorem re_add (x y : Dual R) : (x + y).re = x.re + y.re := rfl
@[simp] theorem eps_add (x y : Dual R) : (x + y).eps = x.eps + y.eps := rfl
@[simp] theorem re_neg (x : Dual R) : (-x).re = -x.re := rfl
@[simp] theorem eps_neg (x : Dual R) : (-x).eps = -x.eps := rfl
@[simp] theorem re_sub (x y : Dual R) : (x - y).re = x.re - y.re := rfl
@[simp] theorem eps_sub (x y : Dual R) : (x - y).eps = x.eps - y.eps := rfl
@[simp] theorem re_mul (x y : Dual R) : (x * y).re = x.re * y.re := rfl
@[simp] theorem eps_mul (x y : Dual R) : (x * y).eps = x.re * y.eps + x.eps * y.re := rfl
@[simp] theorem re_natCast (n : Nat) : (n : Dual R).re = n := rfl
@[simp] theorem eps_natCast (n : Nat) : (n : Dual R).eps = 0 := rfl
@[simp] theorem re_intCast (n : Int) : (n : Dual R).re = n := rfl
@[simp] theorem eps_intCast (n : Int) : (n : Dual R).eps = 0 := rfl

instance : CommRing (Dual R) where
  add_assoc x y z := by ext <;> simp [add_assoc]
  zero_add x := by ext <;> simp
  add_zero x := by ext <;> simp
  add_comm x y := by ext <;> simp [add_comm]
  neg_add_cancel x := by ext <;> simp
  sub_eq_add_neg x y := by ext <;> simp [sub_eq_add_neg]
  mul_assoc x y z := by ext <;> simp <;> ring
  one_mul x := by ext <;> simp
  mul_one x := by ext <;> simp
  mul_comm x y := by ext <;> simp <;> ring
  left_distrib x y z := by ext <;> simp <;> ring
  right_distrib x y z := by ext <;> simp <;> ring
  zero_mul x := by ext <;> simp
  mul_zero x := by ext <;> simp
  nsmul := nsmulRec
  zsmul := zsmulRec
  natCast_zero := by ext <;> simp
  natCast_succ n := by ext <;> simp
  intCast_ofNat n := by ext <;> simp
  intCast_negSucc n := by ext <;> simp

/-- The tangent of a sum is the sum of the tangents. -/
def epsHom : Dual R →+ R where
  toFun := eps
  map_zero' := rfl
  map_add' _ _ := rfl

@[simp] theorem epsHom_apply (x : Dual R) : epsHom x = x.eps := rfl

end Ring

end Dual

section

variable {R : Type} [Elementary R]

open Elementary (slopeUnary slopePowi byLeft byRight)

instance : Elementary (Dual R) where
  unary op x := ⟨Elementary.unary op x.re, x.eps * slopeUnary op x.re⟩
  pow x y := ⟨Elementary.pow x.re y.re,
    x.eps * byLeft .pow x.re y.re + y.eps * byRight .pow x.re y.re⟩
  powi x n := ⟨Elementary.powi x.re n, x.eps * slopePowi x.re n⟩
  unary_neg x := by ext <;> simp [Elementary.unary_neg, slopeUnary]
  recip_one := by ext <;> simp [Elementary.recip_one]
  powi_zero x := by ext <;> simp [Elementary.powi_zero]
  powi_one x := by ext <;> simp [Elementary.powi_one, slopePowi, Elementary.powi_zero]

instance {F : Type} [Scalar F] [Embeds F R] : Embeds F (Dual R) where
  embed x := ⟨embed x, 0⟩
  embed_zero := by ext <;> simp
  embed_one := by ext <;> simp
  embed_ofInt n := by ext <;> simp

end

namespace Dual

variable {F R : Type} [Scalar F] [Elementary R] [Embeds F R]

open Elementary (slopeUnary slopePowi byLeft byRight)

@[simp] theorem re_embed (x : F) : (embed x : Dual R).re = embed x := rfl

@[simp] theorem eps_embed (x : F) : (embed x : Dual R).eps = 0 := rfl

omit [Scalar F] [Embeds F R]

@[simp] theorem re_unary (op : Unary) (x : Dual R) :
    (Elementary.unary op x).re = Elementary.unary op x.re := rfl

@[simp] theorem eps_unary (op : Unary) (x : Dual R) :
    (Elementary.unary op x).eps = x.eps * slopeUnary op x.re := rfl

@[simp] theorem re_powi (x : Dual R) (n : Int) :
    (Elementary.powi x n).re = Elementary.powi x.re n := rfl

@[simp] theorem eps_powi (x : Dual R) (n : Int) :
    (Elementary.powi x n).eps = x.eps * slopePowi x.re n := rfl

@[simp] theorem re_pow (x y : Dual R) :
    (Elementary.pow x y).re = Elementary.pow x.re y.re := rfl

@[simp] theorem eps_pow (x y : Dual R) : (Elementary.pow x y).eps =
    x.eps * byLeft .pow x.re y.re + y.eps * byRight .pow x.re y.re := rfl

@[simp] theorem re_binary (op : Binary) (x y : Dual R) :
    (Elementary.binary op x y).re = Elementary.binary op x.re y.re := by
  cases op <;> rfl

instance [PowerRule R] : PowerRule (Dual R) where
  pow_sub_one x y := by
    ext
    · simp [PowerRule.pow_sub_one]
    · simp [byLeft, byRight, slopeUnary, PowerRule.pow_sub_one]
      ring

/-- The tangent of an operation is the sum of the tangents of its operands,
each times its partial derivative. -/
@[simp] theorem eps_binary (op : Binary) (x y : Dual R) : (Elementary.binary op x y).eps =
    x.eps * byLeft op x.re y.re + y.eps * byRight op x.re y.re := by
  cases op <;> simp [Elementary.binary, byLeft, byRight, slopeUnary] <;> ring

/-! ## Projection and exchange -/

theorem isHom_re [Scalar F] [Embeds F R] : IsHom F (re : Dual R → R) where
  zero := rfl
  embed _ := rfl
  binary := re_binary
  unary _ _ := rfl
  powi _ _ := rfl

/-- Exchanges the two first-order tangents. -/
def swap {T : Type} (x : Dual (Dual T)) : Dual (Dual T) :=
  ⟨⟨x.re.re, x.eps.re⟩, ⟨x.re.eps, x.eps.eps⟩⟩

/-- Second derivatives do not depend on the order of differentiation. -/
theorem isHom_swap [Scalar F] [Embeds F R] [PowerRule R] :
    IsHom F (swap : Dual (Dual R) → Dual (Dual R)) where
  zero := rfl
  embed _ := rfl
  binary op x y := by
    cases op <;> ext <;>
      simp [swap, byLeft, byRight, slopeUnary, Elementary.binary, PowerRule.pow_sub_one] <;> ring
  unary op x := by
    cases op <;> ext <;> simp [swap, slopeUnary] <;> ring
  powi x n := by
    ext <;> simp [swap, slopePowi]
    ring

end Dual

end LoopDiff
