import Mathlib
import TensorMechanics.Proofs.Elasticity.Stiffness
import TensorMechanics.Proofs.LinearAlgebra.Product

/-!
# Proofs: the stiffness matrix as an energy form

The quadratic form of the stiffness matrix is the virtual work of the material law: the stress of one
displacement gradient, contracted in full with another one, summed over the quadrature points with
their weights. The work is symmetric in both displacements, and it is not negative for one displacement
where the weights and the moduli are not, so the matrix is symmetric and positive semidefinite.
-/

namespace TensorMechanics.Elasticity

open Tensor Grid ColumnMatrix Element Matrix

variable {α : Type} {d n : Nat}

/-- The virtual work of the stresses of one displacement along another one. -/
def virtualWork [ExactRing α] (p : LameParameters α) (points : List (Kinematics α d))
    (u v : Fin (n * d) → α) : Checked α :=
  points.foldlM (fun work q => do
    let stress ← p.stress (displacementGradient q u)
    let density ← Expr.contractFull (.tensor stress) (.tensor (displacementGradient q v))
    return work + q.jxw * density) 0

section Ring

variable [ExactRing α]

theorem virtualWork_eq (p : LameParameters α) (hd : d ^ 4 < Word.limit)
    (points : List (Kinematics α d)) (u v : Fin (n * d) → α) :
    virtualWork p points u v = .ok (points.map fun q =>
      q.jxw * p.work (displacementGradient q u) (displacementGradient q v)).sum := by
  have hd₂ : d ^ 2 < Word.limit := MultiIndex.pow_lt_limit hd (by decide)
  have hstep : ∀ q ∈ points, ∀ work : α, (do
      let stress ← p.stress (displacementGradient q u)
      let density ← Expr.contractFull (.tensor stress) (.tensor (displacementGradient q v))
      return work + q.jxw * density) =
        .ok (work + q.jxw * p.work (displacementGradient q u) (displacementGradient q v)) := by
    intro q _ work
    rw [stress_eq p _ hd, Checked.ok_bind, LinearAlgebra.contractFull_eq _ _ hd₂]
    rfl
  rw [virtualWork, Checked.foldlM_add hstep, zero_add]

/-- Nodal forces that are a weighted tensor contracted with the gradient of each node do the work of that
tensor along the displacement gradient. -/
theorem sum_displacement_mul_force (q : Kinematics α d) (s : Tensor α d 2) (v : Fin (n * d) → α) :
    ∑ a, ∑ i, v (position a i) * (q.jxw * ∑ j, s.get₂ i j * component q.gradients a j) =
      q.jxw * ∑ i, ∑ j, s.get₂ i j * (displacementGradient q v).get₂ i j := by
  rw [Finset.sum_comm, Finset.mul_sum]
  refine Finset.sum_congr rfl fun i _ => ?_
  simp only [displacementGradient, get₂_ofFn₂, Finset.mul_sum]
  rw [Finset.sum_comm]
  refine Finset.sum_congr rfl fun j _ => Finset.sum_congr rfl fun a _ => ?_
  ring

theorem dotProduct_toMatrix_mulVec {p : LameParameters α} {points : List (Kinematics α d)}
    {k : ColumnMatrix α (n * d) (n * d)}
    (hk : ∀ r c, k.get r c = (points.map fun q => p.contribution q r c).sum)
    (u v : Fin (n * d) → α) :
    v ⬝ᵥ k.toMatrix *ᵥ u = (points.map fun q =>
      q.jxw * p.work (displacementGradient q u) (displacementGradient q v)).sum := by
  calc v ⬝ᵥ k.toMatrix *ᵥ u
      = ∑ a, ∑ i, (points.map fun q => v (position a i) *
          (q.jxw * ∑ j, (p.stressTensor (displacementGradient q u)).get₂ i j *
            component q.gradients a j)).sum := by
        rw [dotProduct, sum_position]
        simp only [toMatrix_mulVec hk, List.sum_map_mul_left]
    _ = (points.map fun q =>
          q.jxw * p.work (displacementGradient q u) (displacementGradient q v)).sum := by
        simp only [sum_sum_map, sum_displacement_mul_force, LameParameters.work]

/-! ## Symmetry -/

theorem modulus_comm (p : LameParameters α) (i j k l : Fin d) :
    p.modulus i j k l = p.modulus k l i j := by
  rw [LameParameters.modulus, LameParameters.modulus, delta_comm k i, delta_comm l j, delta_comm k j,
    delta_comm l i]
  ring

theorem contribution_comm (p : LameParameters α) (q : Kinematics α d) (r c : Fin (n * d)) :
    p.contribution q r c = p.contribution q c r := by
  rw [LameParameters.contribution, LameParameters.contribution, Finset.sum_comm]
  refine congrArg _ (Finset.sum_congr rfl fun l _ => Finset.sum_congr rfl fun j _ => ?_)
  rw [modulus_comm, mul_comm (component _ _ _)]

end Ring

/-! ## The energy form -/

/-- The stiffness matrix is the energy form of the material law. If all quadrature points have the same
number of nodes, the matrix exists, its bilinear form is the virtual work of the stresses, and it is
symmetric. Over ordered numbers it is positive semidefinite if the weights, the shear modulus and
`2 mu + d lambda` are not negative. -/
theorem stiffness_energy_form [ExactRing α] (p : LameParameters α) (hd : d ^ 4 < Word.limit)
    {points : List (Kinematics α d)}
    (hpoints : ∀ q ∈ points, q.gradients.length = nodeCount points) :
    ∃ k, stiffness p points = .ok k ∧
      (∀ u v, virtualWork p points u v = .ok (v ⬝ᵥ k.toMatrix *ᵥ u)) ∧
      k.toMatrix.IsSymm ∧
      ∀ [LinearOrder α] [IsStrictOrderedRing α], (∀ q ∈ points, 0 ≤ q.jxw) → 0 ≤ p.mu →
        0 ≤ 2 * p.mu + d * p.lambda → ∀ u, 0 ≤ u ⬝ᵥ k.toMatrix *ᵥ u := by
  obtain ⟨k, hk, hentries⟩ := exists_assemble p hd hpoints
  refine ⟨k, hk, fun u v => ?_, ?_, ?_⟩
  · rw [virtualWork_eq p hd, dotProduct_toMatrix_mulVec hentries]
  · refine Matrix.IsSymm.ext fun r c => ?_
    show k.get c r = k.get r c
    simp only [hentries, contribution_comm p _ c r]
  · intro _ _ hweights hmu hbulk u
    rw [dotProduct_toMatrix_mulVec hentries]
    refine List.sum_nonneg fun x hx => ?_
    obtain ⟨q, hq, rfl⟩ := List.mem_map.mp hx
    exact mul_nonneg (hweights q hq) (work_self_nonneg hmu hbulk _)

/-- A triangle with one quadrature point over the rational numbers. -/
theorem stiffness_energy_form_triangle :
    2 ^ 4 < Word.limit ∧ ∃ (p : LameParameters ℚ) (q : Kinematics ℚ 2),
      p.mu = 1 ∧ p.lambda = 1 ∧ q.jxw = 1 / 2 ∧
      q.gradients = [⟨#v[-1, -1]⟩, ⟨#v[1, 0]⟩, ⟨#v[0, 1]⟩] ∧
      (∀ x ∈ [q], x.gradients.length = nodeCount [q]) ∧
      ∃ k, stiffness p [q] = .ok k ∧
        (∀ u v, virtualWork p [q] u v = .ok (v ⬝ᵥ k.toMatrix *ᵥ u)) ∧ k.toMatrix.IsSymm ∧
        (∀ u, 0 ≤ u ⬝ᵥ k.toMatrix *ᵥ u) ∧
        k.toList.take 6 = [2, 1, -3 / 2, -1 / 2, -1 / 2, -1 / 2] := by
  let p : LameParameters ℚ := ⟨1, 1⟩
  let q : Kinematics ℚ 2 := ⟨.ofFn₂ fun i j => if i = j then 1 else 0, 1, 1 / 2,
    [⟨#v[-1, -1]⟩, ⟨#v[1, 0]⟩, ⟨#v[0, 1]⟩]⟩
  have hd : 2 ^ 4 < Word.limit := by decide
  have hpoints : ∀ x ∈ [q], x.gradients.length = nodeCount [q] := by
    intro x hx
    rw [List.mem_singleton.mp hx]
    rfl
  obtain ⟨k, hk, hwork, hsymm, hnonneg⟩ := stiffness_energy_form p hd hpoints
  have hweights : ∀ x ∈ [q], 0 ≤ x.jxw := by
    intro x hx
    rw [List.mem_singleton.mp hx]
    decide +kernel
  have hcolumn : (stiffness p [q]).toOption.map (fun k => k.toList.take 6) =
      some [2, 1, -3 / 2, -1 / 2, -1 / 2, -1 / 2] := by
    decide +kernel
  rw [hk] at hcolumn
  exact ⟨hd, p, q, rfl, rfl, rfl, rfl, hpoints, k, hk, hwork, hsymm,
    hnonneg hweights (by decide) (by decide +kernel), Option.some.inj hcolumn⟩

end TensorMechanics.Elasticity
