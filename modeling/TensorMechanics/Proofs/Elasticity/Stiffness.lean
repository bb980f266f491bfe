import Mathlib
import TensorMechanics.Elasticity.Stiffness
import TensorMechanics.Proofs.ColumnMatrix
import TensorMechanics.Proofs.Elasticity.Stress
import TensorMechanics.Proofs.Element.Kinematics

/-!
# Proofs: assembling the stiffness matrix

The loops of the assembly are steps that add: a block adds to the rows of one node and the columns of
another, a quadrature point adds the blocks of all pairs of nodes, and the matrix starts at zero. So an
entry is the sum over the quadrature points of what each of them contributes to it.

Applied to nodal displacements, the matrix gives nodal forces: at every quadrature point the stress of
the displacement gradient, weighted and contracted with the gradient of the node.
-/

namespace TensorMechanics.Elasticity

open Tensor Grid ColumnMatrix Element

variable {α : Type} [ExactRing α] {d n : Nat}

/-! ## Blocks -/

theorem couplingBlock_eq (p : LameParameters α) (a b : Tensor α d 1) (hd : d ^ 4 < Word.limit) :
    couplingBlock (p.exchanged d) a b =
      .ok (.ofFn₂ fun i k => ∑ j, ∑ l, p.modulus i j k l * (a.get₁ j * b.get₁ l)) := by
  have hvector : d ^ 1 < Word.limit := MultiIndex.pow_lt_limit hd (by decide)
  have haddressable : (Expr.outer dyadRank (.tensor a) (.tensor b)).Addressable := ⟨hvector, hvector⟩
  rw [couplingBlock, contractTwice_eq _ haddressable hd]
  simp only [LameParameters.exchanged, LameParameters.tensor, get₄_ofFn₄, Expr.formula_dyad, id]

/-- A block adds to the rows of its first node and the columns of its second node, and nowhere else. -/
theorem get_addBlock (k : ColumnMatrix α (n * d) (n * d)) (a b : Fin n) (weight : α)
    (block : Tensor α d 2) (r c : Fin (n * d)) :
    (addBlock k a b weight block).get r c =
      if rowOf r = a ∧ rowOf c = b then k.get r c + weight * block.get₂ (columnOf r) (columnOf c)
      else k.get r c := by
  have hentry : ∀ (i j : Fin d) (k : ColumnMatrix α (n * d) (n * d)),
      (k.set (position a i) (position b j)
        (k.get (position a i) (position b j) + weight * block.get₂ i j)).get r c =
      if (r = position a i ∧ rowOf c = b) ∧ j = columnOf c then
        k.get r c + weight * block.get₂ i (columnOf c)
      else k.get r c := by
    intro i j k
    rw [get_set]
    by_cases hposition : position a i = r ∧ position b j = c
    · obtain ⟨rfl, rfl⟩ := hposition
      simp
    · have hother : ¬ ((r = position a i ∧ rowOf c = b) ∧ j = columnOf c) := by
        rintro ⟨⟨hr, hc⟩, hj⟩
        exact hposition ⟨hr.symm, (position_eq_iff.mpr ⟨hc, hj.symm⟩).symm⟩
      rw [if_neg hposition, if_neg hother]
  -- the inner loop reaches the entry in the column of the block it lies in, the outer one in the row
  have hrow := fun (i : Fin d) (k : ColumnMatrix α (n * d) (n * d)) =>
    get_foldl_finRange (g := (· + weight * block.get₂ i (columnOf c))) (hentry i) k
  refine get_foldl_finRange (P := rowOf r = a ∧ rowOf c = b) (j := columnOf r)
    (g := (· + weight * block.get₂ (columnOf r) (columnOf c))) (fun i k => (hrow i k).trans ?_) k
  simp only [position_eq_iff]
  by_cases hi : i = columnOf r
  · subst hi
    simp
  · simp [hi, Ne.symm hi]

theorem adds_addBlock (k : ColumnMatrix α (n * d) (n * d)) (a b : Fin n) (weight : α)
    (block : Tensor α d 2) :
    Adds k (addBlock k a b weight block) fun r c =>
      if rowOf r = a ∧ rowOf c = b then weight * block.get₂ (columnOf r) (columnOf c) else 0 := by
  intro r c
  by_cases hnodes : rowOf r = a ∧ rowOf c = b
  · simp only [get_addBlock, if_pos hnodes]
  · simp only [get_addBlock, if_neg hnodes, add_zero]

/-! ## Quadrature points -/

/-- What a quadrature point contributes to an entry of the stiffness matrix. -/
def LameParameters.contribution (p : LameParameters α) (q : Kinematics α d) (r c : Fin (n * d)) : α :=
  q.jxw * ∑ j, ∑ l, p.modulus (columnOf r) j (columnOf c) l *
    (component q.gradients (rowOf r) j * component q.gradients (rowOf c) l)

theorem exists_gradientsFor {q : Kinematics α d} (hq : q.gradients.length = n) :
    ∃ gradients, gradientsFor n q = .ok gradients ∧
      ∀ (a : Fin n) j, gradients[a].get₁ j = component q.gradients a j := by
  refine ⟨_, dif_pos hq, fun a j => ?_⟩
  rw [component_eq (hq.symm ▸ a.isLt)]
  simp

theorem exists_addPoint (p : LameParameters α) (hd : d ^ 4 < Word.limit) {q : Kinematics α d}
    {gradients : Vector (Tensor α d 1) n}
    (hgradients : ∀ (a : Fin n) j, gradients[a].get₁ j = component q.gradients a j)
    (k : ColumnMatrix α (n * d) (n * d)) :
    ∃ k', addPoint (p.exchanged d) q.jxw gradients k = .ok k' ∧ Adds k k' (p.contribution q) := by
  have hblock : ∀ (a b : Fin n) (k : ColumnMatrix α (n * d) (n * d)), ∃ k',
      (do
        let block ← couplingBlock (p.exchanged d) gradients[a] gradients[b]
        return addBlock k a b q.jxw block) = .ok k' ∧
      Adds k k' fun r c => if rowOf r = a ∧ rowOf c = b then p.contribution q r c else 0 := by
    intro a b k
    refine ⟨_, by rw [couplingBlock_eq p _ _ hd]; rfl, (adds_addBlock k a b _ _).congr fun r c => ?_⟩
    by_cases hnodes : rowOf r = a ∧ rowOf c = b
    · obtain ⟨rfl, rfl⟩ := hnodes
      simp only [get₂_ofFn₂, hgradients, LameParameters.contribution]
    · rw [if_neg hnodes, if_neg hnodes]
  have hrow := fun (a : Fin n) (_ : a ∈ List.finRange n) (k : ColumnMatrix α (n * d) (n * d)) =>
    exists_foldlM_adds (fun b (_ : b ∈ List.finRange n) k => hblock a b k) k
  obtain ⟨k', hk', hadds⟩ := exists_foldlM_adds hrow k
  refine ⟨k', hk', hadds.congr fun r c => ?_⟩
  -- of all pairs of nodes, only that of the row and the column contributes
  simp [← Fin.sum_univ_def, ite_and]

/-- A quadrature point with as many gradients as the element has nodes adds its contribution. -/
theorem exists_addGradients (p : LameParameters α) (hd : d ^ 4 < Word.limit) {q : Kinematics α d}
    (hq : q.gradients.length = n) (k : ColumnMatrix α (n * d) (n * d)) :
    ∃ k', (gradientsFor n q >>= fun gradients => addPoint (p.exchanged d) q.jxw gradients k) = .ok k' ∧
      Adds k k' (p.contribution q) := by
  obtain ⟨gradients, hfor, hgradients⟩ := exists_gradientsFor hq
  rw [hfor, Checked.ok_bind]
  exact exists_addPoint p hd hgradients k

/-! ## The matrix -/

/-- The assembly answers if every quadrature point has as many gradients as the element has nodes. An
entry of the matrix sums what the points contribute to it. -/
theorem exists_assemble (p : LameParameters α) (hd : d ^ 4 < Word.limit)
    {points : List (Kinematics α d)} (hpoints : ∀ q ∈ points, q.gradients.length = n) :
    ∃ k, assemble p n points = .ok k ∧
      ∀ r c, k.get r c = (points.map fun q => p.contribution q r c).sum := by
  obtain ⟨k, hk, hadds⟩ := exists_foldlM_adds
    (fun q hq k => exists_addGradients p hd (hpoints q hq) k) (.replicate (n * d) (n * d) 0)
  exact ⟨k, hk, fun r c => by rw [hadds r c, get_replicate, zero_add]⟩

/-! ## Nodal forces -/

/-- The gradient of the displacement at a quadrature point, `∑ u_A ⊗ ∇N_A`. Component `i` of the
displacement of node `A` is at position `A d + i`. -/
def displacementGradient (q : Kinematics α d) (u : Fin (n * d) → α) : Tensor α d 2 :=
  .ofFn₂ fun i j => ∑ a, u (position a i) * component q.gradients a j

/-- Exchanging a sum over a list and a sum over a finite type. -/
theorem sum_sum_map {ι β M : Type} [Fintype ι] [AddCommMonoid M] (xs : List β) (f : β → ι → M) :
    ∑ c, (xs.map fun x => f x c).sum = (xs.map fun x => ∑ c, f x c).sum := by
  have hmultiset := Multiset.sum_map_sum (m := (xs : Multiset β)) (s := Finset.univ) (f := f)
  simpa only [Multiset.map_coe, Multiset.sum_coe] using hmultiset.symm

/-- The stress of the gradient, as a sum over all nodal displacements. -/
theorem get₂_stressTensor_displacementGradient (p : LameParameters α) (q : Kinematics α d)
    (u : Fin (n * d) → α) (i j : Fin d) :
    (p.stressTensor (displacementGradient q u)).get₂ i j =
      ∑ c, (∑ l, p.modulus i j (columnOf c) l * component q.gradients (rowOf c) l) * u c := by
  rw [sum_position, Finset.sum_comm, LameParameters.stressTensor, get₂_ofFn₂]
  refine Finset.sum_congr rfl fun k _ => ?_
  simp only [rowOf_position, columnOf_position, Finset.sum_mul]
  rw [Finset.sum_comm]
  refine Finset.sum_congr rfl fun l _ => ?_
  rw [displacementGradient, get₂_ofFn₂, Finset.mul_sum]
  refine Finset.sum_congr rfl fun b _ => ?_
  ring

/-- The contributions of a quadrature point to a row, applied to nodal displacements, are the weighted
stress of the displacement gradient, contracted with the gradient of the node. -/
theorem sum_contribution_mul (p : LameParameters α) (q : Kinematics α d) (u : Fin (n * d) → α)
    (a : Fin n) (i : Fin d) :
    ∑ c, p.contribution q (position a i) c * u c =
      q.jxw * ∑ j, (p.stressTensor (displacementGradient q u)).get₂ i j *
        component q.gradients a j := by
  calc ∑ c, p.contribution q (position a i) c * u c
      = ∑ c, ∑ j, q.jxw *
          ((∑ l, p.modulus i j (columnOf c) l * component q.gradients (rowOf c) l) * u c *
            component q.gradients a j) := by
        refine Finset.sum_congr rfl fun c _ => ?_
        simp only [LameParameters.contribution, rowOf_position, columnOf_position, Finset.mul_sum,
          Finset.sum_mul]
        refine Finset.sum_congr rfl fun j _ => Finset.sum_congr rfl fun l _ => ?_
        ring
    _ = q.jxw * ∑ j, (p.stressTensor (displacementGradient q u)).get₂ i j *
          component q.gradients a j := by
        rw [Finset.sum_comm]
        simp only [get₂_stressTensor_displacementGradient, ← Finset.mul_sum, ← Finset.sum_mul]

/-- The nodal forces that balance nodal displacements. -/
theorem toMatrix_mulVec {p : LameParameters α} {points : List (Kinematics α d)}
    {k : ColumnMatrix α (n * d) (n * d)}
    (hk : ∀ r c, k.get r c = (points.map fun q => p.contribution q r c).sum)
    (u : Fin (n * d) → α) (a : Fin n) (i : Fin d) :
    (k.toMatrix.mulVec u) (position a i) =
      (points.map fun q => q.jxw * ∑ j, (p.stressTensor (displacementGradient q u)).get₂ i j *
        component q.gradients a j).sum := by
  calc (k.toMatrix.mulVec u) (position a i)
      = ∑ c, (points.map fun q => p.contribution q (position a i) c * u c).sum := by
        rw [Matrix.mulVec, dotProduct]
        refine Finset.sum_congr rfl fun c _ => ?_
        rw [List.sum_map_mul_right, ← hk]
        rfl
    _ = _ := by
        rw [sum_sum_map]
        simp only [sum_contribution_mul]

end TensorMechanics.Elasticity
