import Mathlib
import TensorMechanics.Proofs.Expr.Exact
import TensorMechanics.Proofs.Expr.Matricization
import TensorMechanics.Proofs.LinearAlgebra.Inverse
import TensorMechanics.Proofs.Tensor.Components

/-!
# Proofs: products of matrices as contractions

Contracting two tensors of rank two over one axis multiplies them as matrices, contracting them in full
sums the products of their entries, and the loop over the diagonal computes the trace. So the laws of
matrices carry over to what these operations compute: the inverse written out by cofactors is one on both
sides, and the determinant written out is multiplicative.
-/

namespace TensorMechanics.LinearAlgebra

open Tensor

variable {α : Type} {d : Nat}

/-- The product of two matrices: the contraction of the last axis of the left one with the first axis of
the right one. -/
def product [RealScalar α] (a b : Tensor α d 2) : Checked (Tensor α d 2) :=
  (Expr.contraction 1 .matrices (.tensor a) (.tensor b)).eval

theorem toMatrix_transpose (a : Tensor α d 2) : (transpose a).toMatrix = a.toMatrix.transpose := by
  ext i j
  exact get₂_ofFn₂ _ i j

theorem transpose_ofMatrix (m : Matrix (Fin d) (Fin d) α) :
    transpose (ofMatrix m) = ofMatrix m.transpose := by
  refine ext_get₂ fun i j => ?_
  rw [transpose, ofMatrix, ofMatrix, get₂_ofFn₂, get₂_ofFn₂, get₂_ofFn₂, Matrix.transpose_apply]

section Exact

variable [Semiring α] [Sub α]

attribute [local instance] Scalar.exact

theorem eval_contraction_matrices (a b : Tensor α d 2) (hd : d ^ 2 < Word.limit) :
    (Expr.contraction 1 .matrices (.tensor a) (.tensor b)).eval =
      .ok (.ofMatrix (a.toMatrix * b.toMatrix)) := by
  have haddressable : (Expr.contraction 1 .matrices (.tensor a) (.tensor b)).Addressable := ⟨hd, hd⟩
  rw [Expr.eval_eq_ofFn haddressable hd, ofFn_eq_ofFn₂]
  congr 2
  funext i j
  rw [Expr.formula, sum_components₁, Matrix.mul_apply]
  refine Finset.sum_congr rfl fun k _ => ?_
  have hleft : ContractionShape.matrices.leftIndex (.ofComponents ![i, j]) (.ofComponents ![k]) =
      .ofComponents ![i, k] := by
    apply MultiIndex.ext
    simp [ContractionShape.leftIndex, MultiIndex.ofComponents]
  have hright : ContractionShape.matrices.rightIndex (.ofComponents ![i, j]) (.ofComponents ![k]) =
      .ofComponents ![k, j] := by
    apply MultiIndex.ext
    simp [ContractionShape.rightIndex, MultiIndex.ofComponents]
  rw [hleft, hright, Expr.formula, Expr.formula, entryAt_ofComponents₂, entryAt_ofComponents₂, id, id]
  rfl

/-- The full contraction of two tensors of rank two sums the products of their entries. -/
theorem contractFull_eq (a b : Tensor α d 2) (hd : d ^ 2 < Word.limit) :
    Expr.contractFull (.tensor a) (.tensor b) = .ok (∑ i, ∑ j, a.get₂ i j * b.get₂ i j) := by
  rw [Expr.contractFull_eq_sum (e := .tensor a) (f := .tensor b) hd hd hd, sum_components₂]
  simp only [Expr.formula, entryAt_ofComponents₂, id]

/-- The loop over the diagonal computes the trace in the sense of matrices. -/
theorem trace_eq (a : Tensor α d 2) : trace a = .ok a.toMatrix.trace := by
  have hstep : ∀ i ∈ List.finRange d, ∀ acc : α,
      Scalar.add acc (a.get₂ i i) = .ok (acc + a.get₂ i i) := fun _ _ _ => rfl
  rw [trace, Checked.foldlM_add hstep, Matrix.trace, Fin.sum_univ_def]
  exact congrArg _ (zero_add _)

end Exact

section Ring

variable [ExactRing α]

theorem product_eq (a b : Tensor α d 2) (hd : d ^ 2 < Word.limit) :
    product a b = .ok (.ofMatrix (a.toMatrix * b.toMatrix)) :=
  eval_contraction_matrices a b hd

theorem ofMatrix_one : (ofMatrix 1 : Tensor α d 2) = identity α d :=
  ext_get₂ fun i j => by rw [ofMatrix, identity, get₂_ofFn₂, get₂_ofFn₂]; rfl

theorem get₂_identity (i j : Fin d) : (identity α d).get₂ i j = delta α i j := get₂_ofFn₂ _ i j

/-- Two matrices whose product is one multiply to the identity. -/
theorem product_eq_identity (hd : d ^ 2 < Word.limit) {a b : Tensor α d 2}
    (h : a.toMatrix * b.toMatrix = 1) : product a b = .ok (identity α d) := by
  rw [product_eq a b hd, h, ofMatrix_one]

end Ring

/-- Up to dimension three, a matrix over an exact field has no inverse exactly if its determinant is zero.
Otherwise its inverse is one on both sides. The determinant of a product is the product of the
determinants, and a matrix and its transpose have the same determinant. -/
theorem inverse_and_determinant [ExactField α] (hd : 1 ≤ d ∧ d ≤ 3) (a : Tensor α d 2) :
    (inverse? a = none ↔ determinant a = 0) ∧
    (determinant a ≠ 0 → ∃ b, inverse? a = some b ∧ product a b = .ok (identity α d) ∧
      product b a = .ok (identity α d)) ∧
    (∀ b, ∃ c, product a b = .ok c ∧ determinant c = determinant a * determinant b) ∧
    determinant (transpose a) = determinant a := by
  have hlimit : d ^ 2 < Word.limit := by
    obtain ⟨hpos, hle⟩ := hd
    interval_cases d <;> decide
  simp only [determinant_eq_det hd, toMatrix_transpose]
  refine ⟨inverse?_eq_none hd, fun hdet => ?_, fun b => ?_, Matrix.det_transpose _⟩
  · obtain ⟨b, hb, hright⟩ := exists_inverse?_eq_some hd hdet
    exact ⟨b, hb, product_eq_identity hlimit hright,
      product_eq_identity hlimit (mul_eq_one_comm.mp hright)⟩
  · refine ⟨_, product_eq a b hlimit, ?_⟩
    rw [toMatrix_ofMatrix, Matrix.det_mul]

/-- A matrix and a singular one over the rational numbers. Neither is symmetric. -/
theorem inverse_and_determinant_rational :
    (1 ≤ 3 ∧ 3 ≤ 3) ∧ ∃ a b singular inverse c : Tensor ℚ 3 2,
      a.toList = [1, 2, 0, 0, 1, 3, 4, 0, 1] ∧ b.toList = [2, 0, 1, 1, 1, 0, 0, 3, 1] ∧
      singular.toList = [1, 2, 3, 2, 4, 6, 0, 1, 5] ∧ inverse? singular = none ∧
      inverse? a = some inverse ∧ product a inverse = .ok (identity ℚ 3) ∧
      product inverse a = .ok (identity ℚ 3) ∧ product a b = .ok c ∧ determinant c = 125 ∧
      determinant (transpose a) = 25 := by
  let a : Tensor ℚ 3 2 := ⟨#v[1, 2, 0, 0, 1, 3, 4, 0, 1]⟩
  let b : Tensor ℚ 3 2 := ⟨#v[2, 0, 1, 1, 1, 0, 0, 3, 1]⟩
  let singular : Tensor ℚ 3 2 := ⟨#v[1, 2, 3, 2, 4, 6, 0, 1, 5]⟩
  have hd : 1 ≤ 3 ∧ 3 ≤ 3 := by decide
  have hdetA : determinant a = 25 := by decide +kernel
  have hdetB : determinant b = 5 := by decide +kernel
  have hsingular : determinant singular = 0 := by decide +kernel
  obtain ⟨-, hregular, hproduct, htranspose⟩ := inverse_and_determinant hd a
  obtain ⟨inverse, hinverse, hright, hleft⟩ := hregular (by rw [hdetA]; decide)
  obtain ⟨c, hc, hdetC⟩ := hproduct b
  refine ⟨hd, a, b, singular, inverse, c, rfl, rfl, rfl, ?_, hinverse, hright, hleft, hc, ?_, ?_⟩
  · exact (inverse_and_determinant hd singular).1.mpr hsingular
  · rw [hdetC, hdetA, hdetB]
    decide +kernel
  · rw [htranspose, hdetA]

end TensorMechanics.LinearAlgebra
