import Mathlib
import TensorMechanics.LinearAlgebra.Inverse
import TensorMechanics.Proofs.Scalar.Exact

/-!
# Proofs: inverses by cofactors

Up to dimension three the formulas written out give the determinant in the sense of matrices, and a
matrix times its transposed cofactors is its determinant times the identity. So over an exact field the
inverse exists exactly if the determinant is not zero, and it is one in the sense of matrices.
-/

namespace TensorMechanics

namespace Tensor

variable {α β : Type} {d : Nat}

/-- A tensor of rank two as a matrix. -/
def toMatrix (t : Tensor α d 2) : Matrix (Fin d) (Fin d) α := Matrix.of t.get₂

@[simp] theorem toMatrix_apply (t : Tensor α d 2) (i j : Fin d) : t.toMatrix i j = t.get₂ i j := rfl

/-- A matrix as a tensor of rank two. -/
def ofMatrix (m : Matrix (Fin d) (Fin d) α) : Tensor α d 2 := .ofFn₂ fun i j => m i j

@[simp] theorem toMatrix_ofMatrix (m : Matrix (Fin d) (Fin d) α) : (ofMatrix m).toMatrix = m := by
  ext i j
  exact get₂_ofFn₂ (fun i j => m i j) i j

@[simp] theorem get₂_map (f : α → β) (t : Tensor α d 2) (i j : Fin d) :
    (t.map f).get₂ i j = f (t.get₂ i j) := by
  simp [map, get₂]

end Tensor

namespace LinearAlgebra

open Tensor

variable {α : Type} {d : Nat}

/-! ## Cofactors -/

section Ring

variable [ExactRing α]

theorem determinant_eq_det (hd : 1 ≤ d ∧ d ≤ 3) (m : Tensor α d 2) :
    determinant m = m.toMatrix.det := by
  obtain ⟨hpos, hle⟩ := hd
  interval_cases d
  · exact (Matrix.det_fin_one m.toMatrix).symm
  · exact (Matrix.det_fin_two m.toMatrix).symm
  · rw [Matrix.det_fin_three]
    simp only [determinant, determinant₃, toMatrix_apply]
    ring

/-- In dimension one the only cofactor is one. -/
theorem toMatrix_mul_identity (m : Tensor α 1 2) :
    m.toMatrix * (identity α 1).toMatrix = determinant m • 1 := by
  ext i j
  fin_cases i; fin_cases j
  simp [Matrix.mul_apply, identity, determinant, Scalar.one]

theorem toMatrix_mul_adjugate₂ (m : Tensor α 2 2) :
    m.toMatrix * (adjugate₂ m).toMatrix = determinant m • 1 := by
  ext i j
  fin_cases i <;> fin_cases j <;>
    simp [Matrix.mul_apply, Fin.sum_univ_two, adjugate₂, determinant, determinant₂] <;> ring

theorem toMatrix_mul_adjugate₃ (m : Tensor α 3 2) :
    m.toMatrix * (adjugate₃ m).toMatrix = determinant m • 1 := by
  ext i j
  fin_cases i <;> fin_cases j <;>
    simp [Matrix.mul_apply, Fin.sum_univ_three, adjugate₃, determinant, determinant₃] <;> ring

end Ring

/-! ## Inverses -/

variable [ExactField α]

theorem cofactorInverse?_eq_some {m adjugate b : Tensor α d 2} :
    cofactorInverse? m adjugate = some b ↔
      determinant m ≠ 0 ∧ adjugate.map (· * (1 / determinant m)) = b := by
  simp only [cofactorInverse?]
  by_cases hdet : determinant m = 0
  · rw [if_pos ((ExactField.beq_iff _ _).mpr hdet)]
    simp [hdet]
  · rw [if_neg fun h => hdet ((ExactField.beq_iff _ _).mp h)]
    simp [hdet]

theorem cofactorInverse?_eq_none {m adjugate : Tensor α d 2} :
    cofactorInverse? m adjugate = none ↔ determinant m = 0 := by
  rw [Option.eq_none_iff_forall_ne_some]
  simp [cofactorInverse?_eq_some]

/-- Up to dimension three, inverting divides the transposed cofactors by the determinant. -/
theorem exists_inverse?_eq (hd : 1 ≤ d ∧ d ≤ 3) (m : Tensor α d 2) :
    ∃ adjugate, inverse? m = cofactorInverse? m adjugate ∧
      m.toMatrix * adjugate.toMatrix = determinant m • 1 := by
  obtain ⟨hpos, hle⟩ := hd
  interval_cases d
  · exact ⟨_, rfl, toMatrix_mul_identity m⟩
  · exact ⟨_, rfl, toMatrix_mul_adjugate₂ m⟩
  · exact ⟨_, rfl, toMatrix_mul_adjugate₃ m⟩

/-- A matrix times its inverse is the identity. -/
theorem toMatrix_mul_inverse (hd : 1 ≤ d ∧ d ≤ 3) {m b : Tensor α d 2} (h : inverse? m = some b) :
    m.toMatrix * b.toMatrix = 1 := by
  obtain ⟨adjugate, hinverse, hadjugate⟩ := exists_inverse?_eq hd m
  obtain ⟨hdet, rfl⟩ := cofactorInverse?_eq_some.mp (hinverse.symm.trans h)
  have hscaled : (adjugate.map (· * (1 / determinant m))).toMatrix =
      (1 / determinant m) • adjugate.toMatrix := by
    ext i j
    simp [mul_comm]
  rw [hscaled, Matrix.mul_smul, hadjugate, smul_smul, one_div_mul_cancel hdet, one_smul]

theorem inverse?_eq_none (hd : 1 ≤ d ∧ d ≤ 3) {m : Tensor α d 2} :
    inverse? m = none ↔ m.toMatrix.det = 0 := by
  obtain ⟨adjugate, hinverse, -⟩ := exists_inverse?_eq hd m
  rw [hinverse, cofactorInverse?_eq_none, determinant_eq_det hd]

/-- A matrix whose determinant is not zero has an inverse. -/
theorem exists_inverse?_eq_some (hd : 1 ≤ d ∧ d ≤ 3) {m : Tensor α d 2} (hdet : m.toMatrix.det ≠ 0) :
    ∃ b, inverse? m = some b ∧ m.toMatrix * b.toMatrix = 1 := by
  obtain ⟨b, hb⟩ := Option.ne_none_iff_exists'.mp (mt (inverse?_eq_none hd).mp hdet)
  exact ⟨b, hb, toMatrix_mul_inverse hd hb⟩

end LinearAlgebra

end TensorMechanics
