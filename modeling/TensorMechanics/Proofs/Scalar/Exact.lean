import Mathlib
import TensorMechanics.Scalar

/-!
# Proofs: exact real scalars

Floating-point numbers obey few laws, so what mechanics computes is stated for exact numbers: scalars
whose ring operations are those of a commutative ring, scalars that form a field and whose equality
is the true one, and ordered fields whose comparison and absolute values are those of the order.
Nothing is asked of the operations that a statement does not need, and of square roots nothing at all.

The rational numbers are exact scalars that compute, and the real numbers are exact scalars.
-/

namespace TensorMechanics

/-- Real scalars whose ring operations are those of a commutative ring. -/
class ExactRing (α : Type) extends RealScalar α, CommRing α

/-- Real scalars that form a field. Comparing them tells whether they are equal. -/
class ExactField (α : Type) extends ExactRing α, Field α where
  beq_iff (a b : α) : (a == b) = true ↔ a = b

/-- Exact real scalars with an order, which their comparison decides. -/
class ExactOrderedField (α : Type) extends ExactField α, LinearOrder α, IsStrictOrderedRing α where
  abs_eq (a : α) : RealScalar.abs a = |a|
  below_iff (a b : α) : RealScalar.below a b = true ↔ a < b

/-! ## Kronecker's delta -/

theorem delta_comm {α : Type} [RealScalar α] {d : Nat} (i j : Fin d) : delta α i j = delta α j i := by
  simp only [delta, eq_comm]

/-- The delta picks one term out of a sum. -/
theorem sum_delta_mul {α : Type} [ExactRing α] {d : Nat} (i : Fin d) (f : Fin d → α) :
    ∑ j, delta α i j * f j = f i := by
  simp [delta]

theorem sum_mul_delta {α : Type} [ExactRing α] {d : Nat} (i : Fin d) (f : Fin d → α) :
    ∑ j, f j * delta α i j = f i := by
  simp [delta]

/-! ## Constants -/

namespace RealScalar

theorem natural_eq_cast {α : Type} [ExactRing α] (n : Nat) : natural α n = n := by
  induction n with
  | zero => exact Nat.cast_zero.symm
  | succ n ih => rw [natural, ih, Nat.cast_succ]

theorem half_eq {α : Type} [ExactField α] : half α = 1 / 2 := by
  rw [half, natural_eq_cast, Nat.cast_ofNat]

end RealScalar

/-! ## Numbers -/

instance exactFieldRat : ExactField ℚ where
  abs := fun q => |q|
  sqrt := Rat.sqrt
  below p q := decide (p < q)
  beq_iff _ _ := beq_iff_eq

instance : ExactOrderedField ℚ where
  abs_eq _ := rfl
  below_iff _ _ := decide_eq_true_iff

noncomputable instance exactFieldReal : ExactField ℝ where
  abs := fun x => |x|
  sqrt := Real.sqrt
  below x y := decide (x < y)
  beq_iff _ _ := beq_iff_eq

noncomputable instance : ExactOrderedField ℝ where
  abs_eq _ := rfl
  below_iff _ _ := decide_eq_true_iff

end TensorMechanics
