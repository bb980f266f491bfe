import Mathlib
import TensorMechanics.Proofs.Elasticity.Stiffness
import TensorMechanics.Proofs.Element.RigidMotion

/-!
# Proofs: frame indifference

The block of two nodes in the stiffness matrix is made of products of their gradients that turn with the
frame: `lambda u vᵀ + mu ((u · v) 1 + v uᵀ)` at each quadrature point. So the blocks of an element that
is moved by an orthogonal matrix `Q` and a vector are `Q K_AB Qᵀ`.
-/

namespace TensorMechanics

/-- The entries that couple two nodes with `d` components each. -/
def ColumnMatrix.block {α : Type} {n d : Nat} (k : ColumnMatrix α (n * d) (n * d)) (a b : Fin n) :
    Matrix (Fin d) (Fin d) α :=
  Matrix.of fun i j => k.get (Grid.position a i) (Grid.position b j)

namespace Elasticity

open Tensor Grid ColumnMatrix Element Matrix

variable {α : Type} {d n : Nat}

section Ring

variable [ExactRing α]

/-! ## Blocks -/

/-- What the gradients of two nodes contribute to their block, before it is weighted. -/
def LameParameters.coupling (p : LameParameters α) (u v : Fin d → α) : Matrix (Fin d) (Fin d) α :=
  Matrix.of fun i k => ∑ j, ∑ l, p.modulus i j k l * (u j * v l)

theorem coupling_eq (p : LameParameters α) (u v : Fin d → α) :
    p.coupling u v = p.lambda • vecMulVec u v + p.mu • ((u ⬝ᵥ v) • 1 + vecMulVec v u) := by
  ext i k
  have hentry : ∀ j l, p.modulus i j k l * (u j * v l) =
      p.lambda * (delta α i j * u j * (delta α k l * v l)) +
        (p.mu * (delta α i k * (u j * (delta α j l * v l))) +
          p.mu * (delta α i l * v l * (delta α k j * u j))) := by
    intro j l
    rw [LameParameters.modulus, delta_comm j k]
    ring
  have hone : (1 : Matrix (Fin d) (Fin d) α) i k = delta α i k := by
    rw [Matrix.one_apply]
    rfl
  simp only [LameParameters.coupling, Matrix.of_apply, hentry, Finset.sum_add_distrib,
    ← Finset.mul_sum, ← Finset.sum_mul, sum_delta_mul, Matrix.add_apply, Matrix.smul_apply, smul_eq_mul,
    vecMulVec_apply, hone, dotProduct]
  ring

/-- The coupling of turned gradients is the turned coupling. -/
theorem coupling_mulVec (p : LameParameters α) {rotation : Matrix (Fin d) (Fin d) α}
    (hq : rotationᵀ * rotation = 1) (u v : Fin d → α) :
    p.coupling (rotation *ᵥ u) (rotation *ᵥ v) = rotation * p.coupling u v * rotationᵀ := by
  have hproduct : ∀ u v : Fin d → α,
      vecMulVec (rotation *ᵥ u) (rotation *ᵥ v) = rotation * vecMulVec u v * rotationᵀ := by
    intro u v
    rw [mul_vecMulVec, vecMulVec_mul, vecMul_transpose]
  have hdot : (rotation *ᵥ u) ⬝ᵥ (rotation *ᵥ v) = u ⬝ᵥ v := by
    rw [dotProduct_mulVec, ← mulVec_transpose, mulVec_mulVec, hq, one_mulVec]
  have hone : rotation * rotationᵀ = 1 := mul_eq_one_comm.mp hq
  simp only [coupling_eq, hproduct, hdot, Matrix.mul_add, Matrix.add_mul, Matrix.mul_smul,
    Matrix.smul_mul, Matrix.mul_one, hone]

theorem component_map_rotate (rotation : Tensor α d 2) (gradients : List (Tensor α d 1)) (a : Nat) :
    component (gradients.map (rotate rotation)) a =
      rotation.toMatrix *ᵥ (component gradients a : Fin d → α) := by
  by_cases ha : a < gradients.length
  · have ha' : a < (gradients.map (rotate rotation)).length := by rwa [List.length_map]
    funext i
    rw [component_eq ha', List.getElem_map, get₁_rotate]
    exact congrFun (congrArg _ (funext fun j => (component_eq ha j).symm)) i
  · have hzero : (component gradients a : Fin d → α) = 0 := by
      funext i
      simp [component, ha]
    rw [hzero, mulVec_zero]
    funext i
    simp [component, ha]

theorem block_eq {p : LameParameters α} {points : List (Kinematics α d)}
    {k : ColumnMatrix α (n * d) (n * d)}
    (hk : ∀ r c, k.get r c = (points.map fun q => p.contribution q r c).sum) (a b : Fin n) :
    k.block a b = (points.map fun q =>
      q.jxw • p.coupling (component q.gradients a) (component q.gradients b)).sum := by
  ext i j
  rw [ColumnMatrix.block, Matrix.of_apply, hk, sum_map_apply]
  refine congrArg List.sum (List.map_congr_left fun q _ => ?_)
  simp only [LameParameters.contribution, rowOf_position, columnOf_position]
  rfl

/-! ## Rotated points -/

theorem nodeCount_map_rotated (rotation : Tensor α d 2) (points : List (Kinematics α d)) :
    nodeCount (points.map (Kinematics.rotated rotation)) = nodeCount points := by
  cases points with
  | nil => rfl
  | cons q points => exact List.length_map _

/-- Rotating all quadrature points turns every block of the stiffness matrix. -/
theorem exists_stiffness_rotated (p : LameParameters α) (hd : d ^ 4 < Word.limit)
    {rotation : Tensor α d 2} (hq : rotation.toMatrixᵀ * rotation.toMatrix = 1)
    {points : List (Kinematics α d)} (hpoints : ∀ q ∈ points, q.gradients.length = nodeCount points) :
    ∃ k k', stiffness p points = .ok k ∧
      stiffness p (points.map (Kinematics.rotated rotation)) = .ok k' ∧ ∀ a b,
      k'.block a b = rotation.toMatrix *
        k.block (a.cast (nodeCount_map_rotated rotation points))
          (b.cast (nodeCount_map_rotated rotation points)) * rotation.toMatrixᵀ := by
  have hpoints' : ∀ q ∈ points.map (Kinematics.rotated rotation),
      q.gradients.length = nodeCount (points.map (Kinematics.rotated rotation)) := by
    intro q' hq'
    obtain ⟨q, hmem, rfl⟩ := List.mem_map.mp hq'
    rw [nodeCount_map_rotated, ← hpoints q hmem]
    exact List.length_map _
  obtain ⟨k, hk, hentries⟩ := exists_assemble p hd hpoints
  obtain ⟨k', hk', hentries'⟩ := exists_assemble p hd hpoints'
  refine ⟨k, k', hk, hk', fun a b => ?_⟩
  rw [block_eq hentries, block_eq hentries', List.map_map, ← List.sum_map_mul_left,
    ← List.sum_map_mul_right]
  refine congrArg List.sum (List.map_congr_left fun q _ => ?_)
  simp only [Function.comp_apply, Kinematics.rotated, component_map_rotate, coupling_mulVec p hq,
    Matrix.mul_smul, Matrix.smul_mul, Fin.val_cast]

end Ring

/-- Every quadrature point of an element has as many gradients as the first one. -/
theorem length_gradients_of_atPoints [ExactField α] (hd : 1 ≤ d ∧ d ≤ 3) {nodes : List (Tensor α d 1)}
    {rule : List (List (Tensor α d 1) × α)} {points : List (Kinematics α d)}
    (h : (Kinematics.atPoints nodes rule).result = .ok points) :
    ∀ q ∈ points, q.gradients.length = nodeCount points := by
  have hnodes : ∀ q ∈ points, q.gradients.length = nodes.length := by
    intro q hmem
    obtain ⟨point, -, hpoint⟩ := Logged.exists_of_mem_traverse h hmem
    exact Kinematics.length_gradients hd rfl hpoint
  intro q hmem
  obtain ⟨first, rest, rfl⟩ := List.exists_cons_of_ne_nil (List.ne_nil_of_mem hmem)
  exact (hnodes q hmem).trans (hnodes first List.mem_cons_self).symm

/-- An orthogonal matrix `Q` and a vector move an element up to dimension three. At each point of a rule
whose reference gradients sum to zero, the moved element has kinematics exactly if the element has them,
with the same weight and the gradients turned by `Q`. Each block of its stiffness matrix is `Q K_AB Qᵀ`. -/
theorem stiffness_frame_indifference [ExactOrderedField α] (p : LameParameters α) (hd : 1 ≤ d ∧ d ≤ 3)
    (nodes : List (Tensor α d 1)) {rule : List (List (Tensor α d 1) × α)}
    (hsum : ∀ point ∈ rule, (point.1.map get₁).sum = 0) {rotation : Tensor α d 2}
    (hq : rotation.toMatrixᵀ * rotation.toMatrix = 1) (shift : Tensor α d 1) :
    (∀ point ∈ rule,
      ((∃ q, (Kinematics.atPoint (nodes.map (move rotation shift)) point.1 point.2).result = .ok q) ↔
        ∃ q, (Kinematics.atPoint nodes point.1 point.2).result = .ok q) ∧
      ∀ q q', (Kinematics.atPoint nodes point.1 point.2).result = .ok q →
        (Kinematics.atPoint (nodes.map (move rotation shift)) point.1 point.2).result = .ok q' →
        q'.jxw = q.jxw ∧ q'.gradients = q.gradients.map (rotate rotation)) ∧
    ∀ points, (Kinematics.atPoints nodes rule).result = .ok points → ∃ points',
      (Kinematics.atPoints (nodes.map (move rotation shift)) rule).result = .ok points' ∧
      ∃ (hcount : nodeCount points' = nodeCount points) (k : _) (k' : _),
        stiffness p points = .ok k ∧ stiffness p points' = .ok k' ∧ ∀ a b,
          k'.block a b =
            rotation.toMatrix * k.block (a.cast hcount) (b.cast hcount) * rotation.toMatrixᵀ := by
  constructor
  · intro point hpoint
    obtain ⟨hiff, hrotated⟩ :=
      Kinematics.atPoint_move nodes hd hq (hsum point hpoint) shift point.2
    refine ⟨hiff, fun q q' h h' => ?_⟩
    rw [hrotated q q' h h']
    exact ⟨rfl, rfl⟩
  · intro points hrun
    refine ⟨points.map (Kinematics.rotated rotation), ?_, nodeCount_map_rotated rotation points,
      exists_stiffness_rotated p (pow_four_lt_limit hd) hq (length_gradients_of_atPoints hd hrun)⟩
    rw [Kinematics.result_atPoints_move hd hq hsum, hrun]
    rfl

/-- A triangle over the rational numbers, mirrored and shifted. -/
theorem stiffness_frame_indifference_mirror :
    (1 ≤ 2 ∧ 2 ≤ 3) ∧ ∃ (nodes : List (Tensor ℚ 2 1)) (rule : List (List (Tensor ℚ 2 1) × ℚ))
        (mirror : Tensor ℚ 2 2),
      nodes = [⟨#v[0, 0]⟩, ⟨#v[2, 0]⟩, ⟨#v[0, 1]⟩] ∧
      rule = [([⟨#v[-1, -1]⟩, ⟨#v[1, 0]⟩, ⟨#v[0, 1]⟩], 1 / 2)] ∧
      mirror = ⟨#v[3 / 5, 4 / 5, 4 / 5, -3 / 5]⟩ ∧
      (∀ point ∈ rule, (point.1.map get₁).sum = 0) ∧ mirror.toMatrixᵀ * mirror.toMatrix = 1 ∧
      ∃ points points', (Kinematics.atPoints nodes rule).result = .ok points ∧
        (Kinematics.atPoints (nodes.map (move mirror ⟨#v[5, 7]⟩)) rule).result = .ok points' ∧
        ∃ (hcount : nodeCount points' = nodeCount points) (k : _) (k' : _),
          stiffness (⟨1, 1⟩ : LameParameters ℚ) points = .ok k ∧
          stiffness (⟨1, 1⟩ : LameParameters ℚ) points' = .ok k' ∧ ∀ a b,
            k'.block a b =
              mirror.toMatrix * k.block (a.cast hcount) (b.cast hcount) * mirror.toMatrixᵀ := by
  let nodes : List (Tensor ℚ 2 1) := [⟨#v[0, 0]⟩, ⟨#v[2, 0]⟩, ⟨#v[0, 1]⟩]
  let rule : List (List (Tensor ℚ 2 1) × ℚ) := [([⟨#v[-1, -1]⟩, ⟨#v[1, 0]⟩, ⟨#v[0, 1]⟩], 1 / 2)]
  let mirror : Tensor ℚ 2 2 := ⟨#v[3 / 5, 4 / 5, 4 / 5, -3 / 5]⟩
  have hd : 1 ≤ 2 ∧ 2 ≤ 3 := by decide
  have hsum : ∀ point ∈ rule, (point.1.map get₁).sum = 0 := by
    intro point hpoint
    rw [List.mem_singleton.mp hpoint]
    decide +kernel
  have hq : mirror.toMatrixᵀ * mirror.toMatrix = 1 := by
    decide +kernel
  have hcount : (Kinematics.atPoints nodes rule).result.toOption.map List.length = some 1 := by
    decide +kernel
  obtain ⟨points, hpoints, -⟩ := Option.map_eq_some_iff.mp hcount
  have hrun : (Kinematics.atPoints nodes rule).result = .ok points := by
    cases h : (Kinematics.atPoints nodes rule).result with
    | ok points' =>
      rw [h] at hpoints
      exact congrArg _ (Option.some.inj hpoints)
    | error e =>
      rw [h] at hpoints
      cases hpoints
  obtain ⟨points', hrun', hblocks⟩ :=
    (stiffness_frame_indifference ⟨1, 1⟩ hd nodes hsum hq ⟨#v[5, 7]⟩).2 points hrun
  exact ⟨hd, nodes, rule, mirror, rfl, rfl, rfl, hsum, hq, points, points', hrun, hrun', hblocks⟩

end Elasticity

end TensorMechanics
