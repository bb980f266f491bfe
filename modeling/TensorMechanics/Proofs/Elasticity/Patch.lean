import Mathlib
import TensorMechanics.Proofs.Elasticity.Stiffness

/-!
# Proofs: affine displacements

An affine displacement `u_A = H x_A + t` has the displacement gradient `H` at every quadrature point,
because the physical gradients are dual to the nodes and sum to zero. Its nodal forces are therefore
those of one stress for the whole element, which is the patch test. A rigid motion, where `H` is
skew-symmetric, has no stress and no forces.
-/

namespace TensorMechanics.Elasticity

open Tensor Grid ColumnMatrix Element Matrix

variable {α : Type} {d n : Nat}

/-- A quadrature point of an element with the given nodes, for reference gradients that sum to zero over
the nodes. -/
def FromNodes [ExactField α] (nodes : List (Tensor α d 1)) (q : Kinematics α d) : Prop :=
  ∃ gradients weight, (Kinematics.atPoint nodes gradients weight).result = .ok q ∧
    ∀ j, (gradients.map fun g => g.get₁ j).sum = 0

/-- The affine displacement `h x_A + t` of the nodes. -/
def affine [ExactRing α] (nodes : List (Tensor α d 1)) (h : Tensor α d 2) (t : Tensor α d 1) :
    Fin (n * d) → α :=
  fun r => ∑ j, h.get₂ (columnOf r) j * component nodes (rowOf r) j + t.get₁ (columnOf r)

/-- Skew-symmetric tensors have no stress. -/
theorem get₂_stressTensor_of_skew [ExactField α] (p : LameParameters α) {h : Tensor α d 2}
    (htwo : (2 : α) ≠ 0) (hskew : ∀ i j, h.get₂ i j = -h.get₂ j i) (i j : Fin d) :
    (p.stressTensor h).get₂ i j = 0 := by
  have hdiagonal : ∀ k, h.get₂ k k = 0 := by
    intro k
    have hdouble : 2 * h.get₂ k k = 0 := by
      rw [two_mul]
      exact add_eq_zero_iff_eq_neg.mpr (hskew k k)
    exact (mul_eq_zero.mp hdouble).resolve_left htwo
  rw [get₂_stressTensor, hskew i j]
  simp [hdiagonal]

variable [ExactField α] {nodes : List (Tensor α d 1)} {q : Kinematics α d}

theorem FromNodes.length_gradients (hd : 1 ≤ d ∧ d ≤ 3) (hq : FromNodes nodes q) :
    q.gradients.length = nodes.length := by
  obtain ⟨gradients, weight, hpoint, -⟩ := hq
  exact Kinematics.length_gradients hd rfl hpoint

/-- The gradient of an affine displacement is its linear part, at every quadrature point. -/
theorem FromNodes.displacementGradient_affine (hd : 1 ≤ d ∧ d ≤ 3) (hn : nodes.length = n)
    (hq : FromNodes nodes q) (h : Tensor α d 2) (t : Tensor α d 1) :
    displacementGradient q (affine nodes h t : Fin (n * d) → α) = h := by
  obtain ⟨gradients, weight, hpoint, hsum⟩ := hq
  refine ext_get₂ fun i l => ?_
  calc (displacementGradient q (affine nodes h t : Fin (n * d) → α)).get₂ i l
      = ∑ a : Fin n, (∑ j, h.get₂ i j * (component nodes a j * component q.gradients a l) +
          t.get₁ i * component q.gradients a l) := by
        rw [displacementGradient, get₂_ofFn₂]
        refine Finset.sum_congr rfl fun a _ => ?_
        rw [affine, rowOf_position, columnOf_position, add_mul, Finset.sum_mul]
        simp only [mul_assoc]
    _ = ∑ j, h.get₂ i j * ∑ a : Fin n, component nodes a j * component q.gradients a l +
          t.get₁ i * ∑ a : Fin n, component q.gradients a l := by
        rw [Finset.sum_add_distrib, Finset.sum_comm]
        simp only [Finset.mul_sum]
    _ = h.get₂ i l := by
        -- the first inner sum is `δ_jl`, the second one vanishes
        simp [Kinematics.sum_nodes_mul_gradients hd hn hpoint,
          Kinematics.sum_gradients hd hn hpoint hsum]

/-- The patch test. For an element up to dimension three with at least one quadrature point, the nodal
forces of an affine displacement are those of the stress of its linear part. The forces of a rigid
motion vanish if two is not zero, as in every ordered field. -/
theorem stiffness_patch (p : LameParameters α) (hd : 1 ≤ d ∧ d ≤ 3) {points : List (Kinematics α d)}
    (hne : points ≠ []) (hpoints : ∀ q ∈ points, FromNodes nodes q) :
    nodeCount points = nodes.length ∧ ∃ k, stiffness p points = .ok k ∧
      ∀ (h : Tensor α d 2) (t : Tensor α d 1),
        (∃ s, p.stress h = .ok s ∧ ∀ a i, (k.toMatrix *ᵥ affine nodes h t) (position a i) =
          (points.map fun q => q.jxw * ∑ j, s.get₂ i j * component q.gradients a j).sum) ∧
        ((2 : α) ≠ 0 → (∀ i j, h.get₂ i j = -h.get₂ j i) → k.toMatrix *ᵥ affine nodes h t = 0) := by
  have hlimit := pow_four_lt_limit hd
  have hlength : ∀ q ∈ points, q.gradients.length = nodes.length := fun q hq =>
    (hpoints q hq).length_gradients hd
  have hcount : nodeCount points = nodes.length := by
    obtain ⟨q, rest, rfl⟩ := List.exists_cons_of_ne_nil hne
    exact hlength q List.mem_cons_self
  obtain ⟨k, hk, hentries⟩ :=
    exists_assemble p hlimit fun q hq => (hlength q hq).trans hcount.symm
  have hforces : ∀ (h : Tensor α d 2) (t : Tensor α d 1) a i,
      (k.toMatrix *ᵥ affine nodes h t) (position a i) =
        (points.map fun q => q.jxw * ∑ j, (p.stressTensor h).get₂ i j *
          component q.gradients a j).sum := by
    intro h t a i
    rw [toMatrix_mulVec hentries]
    refine congrArg _ (List.map_congr_left fun q hq => ?_)
    rw [(hpoints q hq).displacementGradient_affine hd hcount.symm]
  refine ⟨hcount, k, hk, fun h t => ⟨⟨_, stress_eq p h hlimit, hforces h t⟩, fun htwo hskew => ?_⟩⟩
  funext r
  rw [← position_rowOf_columnOf r, hforces]
  simp [get₂_stressTensor_of_skew p htwo hskew]

/-- A triangle over the rational numbers, turned and shifted. -/
theorem stiffness_patch_triangle :
    (1 ≤ 2 ∧ 2 ≤ 3) ∧ ∃ (nodes : List (Tensor ℚ 2 1)) (q : Kinematics ℚ 2),
      nodes = [⟨#v[0, 0]⟩, ⟨#v[2, 0]⟩, ⟨#v[0, 1]⟩] ∧ q.jxw = 1 ∧ [q] ≠ [] ∧
      (∀ x ∈ [q], FromNodes nodes x) ∧
      ∃ k, stiffness (⟨1, 1⟩ : LameParameters ℚ) [q] = .ok k ∧
        k.toMatrix *ᵥ affine nodes ⟨#v[0, -1, 1, 0]⟩ ⟨#v[3, 4]⟩ = 0 := by
  let nodes : List (Tensor ℚ 2 1) := [⟨#v[0, 0]⟩, ⟨#v[2, 0]⟩, ⟨#v[0, 1]⟩]
  let gradients : List (Tensor ℚ 2 1) := [⟨#v[-1, -1]⟩, ⟨#v[1, 0]⟩, ⟨#v[0, 1]⟩]
  have hd : 1 ≤ 2 ∧ 2 ≤ 3 := by decide
  have hjxw : (Kinematics.atPoint nodes gradients (1 / 2)).result.toOption.map (·.jxw) = some 1 := by
    decide +kernel
  obtain ⟨q, hq, hone⟩ := Option.map_eq_some_iff.mp hjxw
  have hresult : (Kinematics.atPoint nodes gradients (1 / 2)).result = .ok q := by
    cases h : (Kinematics.atPoint nodes gradients (1 / 2)).result with
    | ok q' =>
      rw [h] at hq
      exact congrArg _ (Option.some.inj hq)
    | error e =>
      rw [h] at hq
      cases hq
  have hsum : ∀ j, (gradients.map fun g => g.get₁ j).sum = 0 := by decide +kernel
  have hpoints : ∀ x ∈ [q], FromNodes nodes x := by
    intro x hx
    rw [List.mem_singleton.mp hx]
    exact ⟨gradients, 1 / 2, hresult, hsum⟩
  have hne : [q] ≠ [] := List.cons_ne_nil _ _
  obtain ⟨-, k, hk, hpatch⟩ := stiffness_patch ⟨1, 1⟩ hd hne hpoints
  have hskew : ∀ i j, (⟨#v[0, -1, 1, 0]⟩ : Tensor ℚ 2 2).get₂ i j =
      -(⟨#v[0, -1, 1, 0]⟩ : Tensor ℚ 2 2).get₂ j i := by
    decide +kernel
  exact ⟨hd, nodes, q, rfl, hone, hne, hpoints, k, hk, (hpatch _ _).2 two_ne_zero hskew⟩

end TensorMechanics.Elasticity
