import Mathlib
import TensorMechanics.Elasticity
import TensorMechanics.Proofs.Expr.Exact
import TensorMechanics.Proofs.Scalar.Exact
import TensorMechanics.Proofs.Tensor.Components

/-!
# Proofs: stress

Over exact numbers the stress of a tensor `h` is the double sum of `C_ijkl h_kl`, which for an
isotropic material is `lambda tr(h) δ_ij + mu (h_ij + h_ji)`. So only the symmetric part of `h`
matters, and the work of the stress of `h` along `h` is `lambda tr(h)²` plus `mu / 2` times the sum of
all `(h_ij + h_ji)²`. The diagonal terms of that sum bound the trace, and this is why the work cannot
be negative as long as neither `mu` nor `2 mu + d lambda` is.
-/

namespace TensorMechanics.Elasticity

open Tensor MultiIndex

variable {α : Type} [ExactRing α] {d : Nat}

/-! ## Double contractions -/

/-- The double contraction of a tensor of rank four with an expression sums over both of its
components. -/
theorem contractTwice_eq (c : Tensor α d 4) {e : Expr α d 2} (he : e.Addressable)
    (hd : d ^ 4 < Word.limit) :
    contractTwice c e =
      .ok (.ofFn₂ fun i j => ∑ k, ∑ l, c.get₄ i j k l * e.formula id (.ofComponents ![k, l])) := by
  have haddressable : (Expr.contraction 2 doubleShape (.tensor c) e).Addressable := ⟨hd, he⟩
  rw [contractTwice, Expr.eval_eq_ofFn haddressable (pow_lt_limit hd (by decide)), ofFn_eq_ofFn₂]
  congr 2
  funext i j
  rw [Expr.formula, sum_components₂]
  refine Finset.sum_congr rfl fun k _ => Finset.sum_congr rfl fun l _ => ?_
  have hleft : doubleShape.leftIndex (.ofComponents ![i, j]) (.ofComponents ![k, l]) =
      .ofComponents ![i, j, k, l] := by
    apply MultiIndex.ext
    simp [ContractionShape.leftIndex, ofComponents]
  have hright : doubleShape.rightIndex (.ofComponents ![i, j]) (.ofComponents ![k, l]) =
      .ofComponents ![k, l] := by
    apply MultiIndex.ext
    simp [ContractionShape.rightIndex, ofComponents]
  rw [hleft, hright, Expr.formula, entryAt_ofComponents₄]
  rfl

/-! ## The stress of an isotropic material -/

/-- The stress of a tensor, by the entries of the elasticity tensor. -/
def LameParameters.stressTensor (p : LameParameters α) (h : Tensor α d 2) : Tensor α d 2 :=
  .ofFn₂ fun i j => ∑ k, ∑ l, p.modulus i j k l * h.get₂ k l

theorem stress_eq (p : LameParameters α) (h : Tensor α d 2) (hd : d ^ 4 < Word.limit) :
    p.stress h = .ok (p.stressTensor h) := by
  have hh : (Expr.tensor h).Addressable := pow_lt_limit hd (by decide)
  rw [LameParameters.stress, contractTwice_eq _ hh hd, LameParameters.stressTensor]
  simp only [LameParameters.tensor, get₄_ofFn₄, Expr.formula, entryAt_ofComponents₂, id]

/-- The trace times `lambda` on the diagonal, and `mu` times the sum of the tensor and its
transpose. -/
theorem get₂_stressTensor (p : LameParameters α) (h : Tensor α d 2) (i j : Fin d) :
    (p.stressTensor h).get₂ i j =
      p.lambda * delta α i j * ∑ k, h.get₂ k k + p.mu * (h.get₂ i j + h.get₂ j i) := by
  have hentry : ∀ k l, p.modulus i j k l * h.get₂ k l =
      p.lambda * delta α i j * (delta α k l * h.get₂ k l) +
        (p.mu * (delta α i k * (delta α j l * h.get₂ k l)) +
          p.mu * (delta α j k * (delta α i l * h.get₂ k l))) := by
    intro k l
    rw [LameParameters.modulus]
    ring
  rw [LameParameters.stressTensor, get₂_ofFn₂]
  simp only [hentry, Finset.sum_add_distrib, ← Finset.mul_sum, sum_delta_mul]
  ring

/-! ## Work -/

/-- The work of the stress of one tensor along another. -/
def LameParameters.work (p : LameParameters α) (h g : Tensor α d 2) : α :=
  ∑ i, ∑ j, (p.stressTensor h).get₂ i j * g.get₂ i j

/-- Twice the work along the tensor itself, as a combination of two squares. -/
theorem two_mul_work_self (p : LameParameters α) (h : Tensor α d 2) :
    2 * p.work h h =
      2 * p.lambda * (∑ k, h.get₂ k k) ^ 2 + p.mu * ∑ i, ∑ j, (h.get₂ i j + h.get₂ j i) ^ 2 := by
  have hentry : ∀ i j, (p.stressTensor h).get₂ i j * h.get₂ i j =
      p.lambda * (∑ k, h.get₂ k k) * (delta α i j * h.get₂ i j) +
        p.mu * ((h.get₂ i j + h.get₂ j i) * h.get₂ i j) := by
    intro i j
    rw [get₂_stressTensor]
    ring
  -- each pair of entries occurs twice, once in either order
  have hpairs : 2 * ∑ i, ∑ j, (h.get₂ i j + h.get₂ j i) * h.get₂ i j =
      ∑ i, ∑ j, (h.get₂ i j + h.get₂ j i) ^ 2 := by
    have hswap : ∑ i, ∑ j, (h.get₂ i j + h.get₂ j i) * h.get₂ i j =
        ∑ i, ∑ j, (h.get₂ i j + h.get₂ j i) * h.get₂ j i := by
      rw [Finset.sum_comm]
      refine Finset.sum_congr rfl fun i _ => Finset.sum_congr rfl fun j _ => ?_
      ring
    rw [two_mul]
    nth_rewrite 2 [hswap]
    simp only [← Finset.sum_add_distrib]
    refine Finset.sum_congr rfl fun i _ => Finset.sum_congr rfl fun j _ => ?_
    ring
  rw [LameParameters.work]
  simp only [hentry, Finset.sum_add_distrib, ← Finset.mul_sum, sum_delta_mul]
  rw [mul_add, mul_left_comm 2 p.mu, hpairs]
  ring

section Order

variable [LinearOrder α] [IsStrictOrderedRing α]

/-- The square of the trace is at most `d / 4` times the sum of all `(h_ij + h_ji)²`. -/
theorem four_mul_sq_trace_le (h : Tensor α d 2) :
    4 * (∑ k, h.get₂ k k) ^ 2 ≤ d * ∑ i, ∑ j, (h.get₂ i j + h.get₂ j i) ^ 2 := by
  have hdiagonal : (∑ k, (h.get₂ k k + h.get₂ k k)) ^ 2 ≤
      d * ∑ k, (h.get₂ k k + h.get₂ k k) ^ 2 := by
    simpa using sq_sum_le_card_mul_sum_sq (s := Finset.univ) (f := fun k => h.get₂ k k + h.get₂ k k)
  have hterm : ∀ k, (h.get₂ k k + h.get₂ k k) ^ 2 ≤ ∑ j, (h.get₂ k j + h.get₂ j k) ^ 2 := fun k =>
    Finset.single_le_sum (f := fun j => (h.get₂ k j + h.get₂ j k) ^ 2)
      (fun j _ => sq_nonneg _) (Finset.mem_univ k)
  have hdouble : ∑ k, (h.get₂ k k + h.get₂ k k) = 2 * ∑ k, h.get₂ k k := by
    rw [Finset.mul_sum]
    exact Finset.sum_congr rfl fun k _ => (two_mul _).symm
  calc 4 * (∑ k, h.get₂ k k) ^ 2 = (∑ k, (h.get₂ k k + h.get₂ k k)) ^ 2 := by rw [hdouble]; ring
    _ ≤ d * ∑ k, (h.get₂ k k + h.get₂ k k) ^ 2 := hdiagonal
    _ ≤ d * ∑ i, ∑ j, (h.get₂ i j + h.get₂ j i) ^ 2 :=
      mul_le_mul_of_nonneg_left (Finset.sum_le_sum fun k _ => hterm k) (Nat.cast_nonneg d)

/-- The work along the tensor itself is not negative. -/
theorem work_self_nonneg {p : LameParameters α} (hmu : 0 ≤ p.mu)
    (hbulk : 0 ≤ 2 * p.mu + d * p.lambda) (h : Tensor α d 2) : 0 ≤ p.work h h := by
  rcases Nat.eq_zero_or_pos d with rfl | hd
  · simp [LameParameters.work]
  · have hpos : (0 : α) < d := Nat.cast_pos.mpr hd
    have htrace := mul_le_mul_of_nonneg_left (four_mul_sq_trace_le h) hmu
    have hsquare := mul_nonneg hbulk (sq_nonneg (∑ k, h.get₂ k k))
    have htwice : 0 ≤ d * (2 * p.work h h) := by
      rw [two_mul_work_self]
      linear_combination htrace + 2 * hsquare
    exact (mul_nonneg_iff_of_pos_left two_pos).mp ((mul_nonneg_iff_of_pos_left hpos).mp htwice)

end Order

end TensorMechanics.Elasticity
