import Mathlib
import TensorMechanics.Proofs.Element.Outcome

/-!
# Proofs: elements moved as a whole

An orthogonal matrix `Q` and a vector `t` move the nodes of an element to `Q x_A + t`. As long as the
reference gradients sum to zero, the Jacobian becomes `Q J`, whose determinant has the same absolute
value and whose inverse is `J⁻¹ Qᵀ`. So a moved element has kinematics exactly where the element has
them, with the same weights and with the gradients turned by `Q`.
-/

namespace TensorMechanics.Element

open Tensor TensorMechanics.LinearAlgebra Matrix

variable {α : Type} {d : Nat}

section Ring

variable [ExactRing α] {nodes gradients : List (Tensor α d 1)}

/-! ## Rotations -/

/-- A vector turned by a matrix. -/
def rotate (rotation : Tensor α d 2) (x : Tensor α d 1) : Tensor α d 1 :=
  .ofFn₁ (rotation.toMatrix *ᵥ x.get₁)

theorem get₁_rotate (rotation : Tensor α d 2) (x : Tensor α d 1) :
    (rotate rotation x).get₁ = rotation.toMatrix *ᵥ x.get₁ := by
  funext i
  exact get₁_ofFn₁ _ i

theorem dyads_map_rotate (rotation : Tensor α d 2) (xs gs : List (Tensor α d 1)) :
    dyads (xs.map (rotate rotation)) gs = rotation.toMatrix * dyads xs gs := by
  rw [dyads, dyads, ← List.sum_map_mul_left, List.zip_map_left, List.map_map]
  refine congrArg List.sum (List.map_congr_left fun x _ => ?_)
  rw [mul_vecMulVec, ← get₁_rotate]
  rfl

/-- The position to which a rigid motion takes a point. -/
def move (rotation : Tensor α d 2) (shift x : Tensor α d 1) : Tensor α d 1 :=
  translate shift (rotate rotation x)

theorem dyads_map_move (hlen : nodes.length = gradients.length) (hsum : (gradients.map get₁).sum = 0)
    (rotation : Tensor α d 2) (shift : Tensor α d 1) :
    dyads (nodes.map (move rotation shift)) gradients = rotation.toMatrix * dyads nodes gradients := by
  have hrotated : (nodes.map (rotate rotation)).length = gradients.length := by
    rw [List.length_map, hlen]
  have hmove : nodes.map (move rotation shift) = (nodes.map (rotate rotation)).map (translate shift) :=
    List.map_map.symm
  rw [hmove, dyads_map_translate hrotated hsum, dyads_map_rotate]

/-! ## Orthogonal matrices -/

variable {rotation : Tensor α d 2}

theorem det_mul_self_of_orthogonal (hq : rotation.toMatrixᵀ * rotation.toMatrix = 1) :
    rotation.toMatrix.det * rotation.toMatrix.det = 1 := by
  have hdet := congrArg det hq
  rwa [det_mul, det_transpose, det_one] at hdet

/-- The inverse of a rotated Jacobian turns the physical gradients. -/
theorem physicalGradient_of_orthogonal (hq : rotation.toMatrixᵀ * rotation.toMatrix = 1)
    {jacobian : Matrix (Fin d) (Fin d) α} {inverse inverse' : Tensor α d 2}
    (h : jacobian * inverse.toMatrix = 1) (h' : rotation.toMatrix * jacobian * inverse'.toMatrix = 1)
    (g : Tensor α d 1) : physicalGradient inverse' g = rotate rotation (physicalGradient inverse g) := by
  have hleft : inverse.toMatrix * rotation.toMatrixᵀ * (rotation.toMatrix * jacobian) = 1 := by
    calc inverse.toMatrix * rotation.toMatrixᵀ * (rotation.toMatrix * jacobian)
        = inverse.toMatrix * (rotation.toMatrixᵀ * rotation.toMatrix) * jacobian := by
          simp only [Matrix.mul_assoc]
      _ = 1 := by rw [hq, Matrix.mul_one, mul_eq_one_comm.mp h]
  have hinverse : inverse'.toMatrix = inverse.toMatrix * rotation.toMatrixᵀ :=
    (left_inv_eq_right_inv hleft h').symm
  refine ext_get₁ fun i => ?_
  rw [get₁_rotate, get₁_physicalGradient, get₁_physicalGradient, hinverse, transpose_mul,
    transpose_transpose, mulVec_mulVec]

end Ring

theorem abs_det_of_orthogonal [ExactOrderedField α] {rotation : Tensor α d 2}
    (hq : rotation.toMatrixᵀ * rotation.toMatrix = 1) : |rotation.toMatrix.det| = 1 := by
  rcases mul_self_eq_one_iff.mp (det_mul_self_of_orthogonal hq) with hdet | hdet
  · rw [hdet, abs_one]
  · rw [hdet, abs_neg, abs_one]

/-! ## The kinematics of a moved element -/

namespace Kinematics

/-- The kinematics seen from a rotated frame. -/
def rotated [ExactRing α] (rotation : Tensor α d 2) (q : Kinematics α d) : Kinematics α d where
  jacobian := .ofMatrix (rotation.toMatrix * q.jacobian.toMatrix)
  determinant := rotation.toMatrix.det * q.determinant
  jxw := q.jxw
  gradients := q.gradients.map (rotate rotation)

/-- The kinematics at the points of a rule, each of which has its reference gradients and its weight. -/
def atPoints [RealScalar α] (nodes : List (Tensor α d 1)) (rule : List (List (Tensor α d 1) × α)) :
    Logged (Notice α) (Error α) (List (Kinematics α d)) :=
  Logged.traverse (fun point => atPoint nodes point.1 point.2) rule

variable [ExactOrderedField α] {nodes gradients : List (Tensor α d 1)} {rotation : Tensor α d 2}

/-- Moving the element rotates its kinematics, and an element without kinematics fails for the same
reason as before. -/
theorem result_atPoint_move (hd : 1 ≤ d ∧ d ≤ 3) (hq : rotation.toMatrixᵀ * rotation.toMatrix = 1)
    (hsum : (gradients.map get₁).sum = 0) (shift : Tensor α d 1) (weight : α) :
    (atPoint (nodes.map (move rotation shift)) gradients weight).result =
      (atPoint nodes gradients weight).result.map (rotated rotation) := by
  have hcount : (nodes.map (move rotation shift)).length = nodes.length := List.length_map _
  by_cases hlen : nodes.length = gradients.length
  · have hjacobian := dyads_map_move hlen hsum rotation shift
    have hlen' := hcount.trans hlen
    have hdet' : (dyads (nodes.map (move rotation shift)) gradients).det =
        rotation.toMatrix.det * (dyads nodes gradients).det := by rw [hjacobian, det_mul]
    by_cases hdet : (dyads nodes gradients).det = 0
    · rw [hdet, mul_zero] at hdet'
      rw [atPoint_of_det_eq_zero hd hlen hdet, atPoint_of_det_eq_zero hd hlen' hdet']
      rfl
    · have hrotation : rotation.toMatrix.det ≠ 0 := left_ne_zero_of_mul
        ((det_mul_self_of_orthogonal hq).trans_ne one_ne_zero)
      have hne : (dyads (nodes.map (move rotation shift)) gradients).det ≠ 0 := by
        rw [hdet']
        exact mul_ne_zero hrotation hdet
      obtain ⟨inverse, hinverse, hrun⟩ := exists_atPoint_of_det_ne_zero hd hlen weight hdet
      obtain ⟨inverse', hinverse', hrun'⟩ := exists_atPoint_of_det_ne_zero hd hlen' weight hne
      have hgradients : gradients.map (physicalGradient inverse') =
          (gradients.map (physicalGradient inverse)).map (rotate rotation) := by
        rw [hjacobian] at hinverse'
        rw [List.map_map]
        exact List.map_congr_left fun g _ => physicalGradient_of_orthogonal hq hinverse hinverse' g
      rw [hrun, hrun', hgradients, hdet', hjacobian]
      simp only [ExactOrderedField.abs_eq, abs_mul, abs_det_of_orthogonal hq, one_mul, Except.map,
        rotated, toMatrix_ofMatrix]
  · rw [atPoint_of_length_ne hlen, atPoint_of_length_ne (hcount.trans_ne hlen), hcount]
    rfl

theorem atPoint_move (nodes : List (Tensor α d 1)) (hd : 1 ≤ d ∧ d ≤ 3)
    (hq : rotation.toMatrixᵀ * rotation.toMatrix = 1)
    (hsum : (gradients.map get₁).sum = 0) (shift : Tensor α d 1) (weight : α) :
    ((∃ q, (atPoint (nodes.map (move rotation shift)) gradients weight).result = .ok q) ↔
      ∃ q, (atPoint nodes gradients weight).result = .ok q) ∧
    ∀ q q', (atPoint nodes gradients weight).result = .ok q →
      (atPoint (nodes.map (move rotation shift)) gradients weight).result = .ok q' →
      q' = q.rotated rotation := by
  rw [result_atPoint_move hd hq hsum]
  cases (atPoint nodes gradients weight).result with
  | error e =>
    refine ⟨⟨?_, ?_⟩, fun q q' h => ?_⟩
    · rintro ⟨q, h⟩
      cases h
    · rintro ⟨q, h⟩
      cases h
    · cases h
  | ok q =>
    refine ⟨⟨fun _ => ⟨_, rfl⟩, fun _ => ⟨_, rfl⟩⟩, fun q₁ q₂ h₁ h₂ => ?_⟩
    obtain rfl := Except.ok.inj h₁
    exact (Except.ok.inj h₂).symm

theorem result_atPoints_move (hd : 1 ≤ d ∧ d ≤ 3) (hq : rotation.toMatrixᵀ * rotation.toMatrix = 1)
    {rule : List (List (Tensor α d 1) × α)} (hsum : ∀ point ∈ rule, (point.1.map get₁).sum = 0)
    (shift : Tensor α d 1) :
    (atPoints (nodes.map (move rotation shift)) rule).result =
      (atPoints nodes rule).result.map (List.map (rotated rotation)) :=
  Logged.result_traverse_map fun point hpoint =>
    result_atPoint_move hd hq (hsum point hpoint) shift point.2

end Kinematics

end TensorMechanics.Element
