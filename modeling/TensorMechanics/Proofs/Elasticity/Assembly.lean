import Mathlib
import TensorMechanics.Proofs.Elasticity.Stiffness

/-!
# Proofs: the assembled matrix, entry by entry

The assembly faults at the first quadrature point whose number of gradients is not that of the first
point. Otherwise an entry of the matrix is the formula of continuum mechanics: the elasticity tensor
between the gradients of the node of its row and the node of its column, summed over the quadrature
points with their weights.
-/

namespace TensorMechanics.Elasticity

open Tensor Grid ColumnMatrix Element

variable {α : Type} [ExactRing α] {d n : Nat}

/-- The assembly faults with both numbers of nodes at the first point that does not have `n`. -/
theorem assemble_eq_error (p : LameParameters α) (hd : d ^ 4 < Word.limit)
    {points : List (Kinematics α d)} {q : Kinematics α d}
    (hq : points.find? (fun q => q.gradients.length ≠ n) = some q) :
    assemble p n points = .error (.nodeCount q.gradients.length n) := by
  have hcount : q.gradients.length ≠ n := by simpa using List.find?_some hq
  refine Checked.foldlM_eq_error (fun x hx k => ?_) (fun k => ?_) hq _
  · obtain ⟨k', hk', -⟩ := exists_addGradients p hd (by simpa using hx) k
    exact ⟨k', hk'⟩
  · rw [gradientsFor, dif_neg hcount, Checked.error_bind]

/-- The assembly faults exactly if the numbers of nodes differ, and the first point that differs from
the first of all is named. Otherwise entry `(a d + i, b d + k)` of the matrix is the sum over the
points of `jxw ∑ C_ijkl (∇N_a)_j (∇N_b)_l`. The block of two nodes leaves all entries as they were that
are not in the rows of the first node and the columns of the second. -/
theorem stiffness_assembly (p : LameParameters α) (hd : d ^ 4 < Word.limit)
    (points : List (Kinematics α d)) :
    (∀ q, points.find? (fun q => q.gradients.length ≠ nodeCount points) = some q →
      stiffness p points = .error (.nodeCount q.gradients.length (nodeCount points))) ∧
    ((∃ fault, stiffness p points = .error fault) ↔
      ∃ q ∈ points, q.gradients.length ≠ nodeCount points) ∧
    ((∀ q ∈ points, q.gradients.length = nodeCount points) →
      ∃ stiff, stiffness p points = .ok stiff ∧
        ∀ (a b : Fin (nodeCount points)) (i k : Fin d),
          stiff.get (position a i) (position b k) =
            (points.map fun q => q.jxw * ∑ j, ∑ l,
              (p.lambda * delta α i j * delta α k l
                + p.mu * (delta α i k * delta α j l + delta α i l * delta α j k)) *
              (component q.gradients a j * component q.gradients b l)).sum) ∧
    ∀ {n : Nat} (stiff : ColumnMatrix α (n * d) (n * d)) (a b : Fin n) (weight : α)
      (block : Tensor α d 2) (r c : Fin (n * d)),
      (addBlock stiff a b weight block).get r c =
        if rowOf r = a ∧ rowOf c = b then
          stiff.get r c + weight * block.get₂ (columnOf r) (columnOf c)
        else stiff.get r c := by
  have hanswers : (∀ q ∈ points, q.gradients.length = nodeCount points) →
      ∃ stiff, stiffness p points = .ok stiff ∧
        ∀ r c, stiff.get r c = (points.map fun q => p.contribution q r c).sum :=
    fun hpoints => exists_assemble p hd hpoints
  refine ⟨fun q hq => assemble_eq_error p hd hq, ⟨?_, ?_⟩, ?_, get_addBlock⟩
  · rintro ⟨fault, hfault⟩
    by_contra hnone
    push Not at hnone
    obtain ⟨stiff, hstiff, -⟩ := hanswers hnone
    rw [hstiff] at hfault
    cases hfault
  · rintro ⟨q, hq, hcount⟩
    have hsome : (points.find? fun q => q.gradients.length ≠ nodeCount points).isSome := by
      rw [List.find?_isSome]
      exact ⟨q, hq, by simpa using hcount⟩
    obtain ⟨x, hx⟩ := Option.isSome_iff_exists.mp hsome
    exact ⟨_, assemble_eq_error p hd hx⟩
  · intro hpoints
    obtain ⟨stiff, hstiff, hentries⟩ := hanswers hpoints
    refine ⟨stiff, hstiff, fun a b i k => ?_⟩
    rw [hentries]
    simp only [LameParameters.contribution, LameParameters.modulus, rowOf_position,
      columnOf_position]

/-- Two nodes with gradients that no exchange of indices leaves as they are, over the rational numbers.
An entry off the diagonal of a block is the formula, and a second point with one node is named. -/
theorem stiffness_assembly_two_nodes :
    2 ^ 4 < Word.limit ∧ ∃ (p : LameParameters ℚ) (q q' : Kinematics ℚ 2),
      p.mu = 2 ∧ p.lambda = 3 ∧ q.jxw = 1 / 2 ∧ q.gradients = [⟨#v[1, 2]⟩, ⟨#v[3, -1]⟩] ∧
      q'.gradients = [⟨#v[1, 1]⟩] ∧
      stiffness p [q, q'] = .error (.nodeCount 1 2) ∧
      ∃ (hcount : nodeCount [q] = 2) (stiff : _), stiffness p [q] = .ok stiff ∧
        stiff.get (position (Fin.cast hcount.symm 0) 0) (position (Fin.cast hcount.symm 1) 1) = 9 / 2 ∧
        stiff.get (position (Fin.cast hcount.symm 0) 1) (position (Fin.cast hcount.symm 1) 0) = 8 := by
  let p : LameParameters ℚ := ⟨2, 3⟩
  let q : Kinematics ℚ 2 := ⟨.ofFn₂ fun i j => if i = j then 1 else 0, 1, 1 / 2,
    [⟨#v[1, 2]⟩, ⟨#v[3, -1]⟩]⟩
  let q' : Kinematics ℚ 2 := ⟨.ofFn₂ fun i j => if i = j then 1 else 0, 1, 1, [⟨#v[1, 1]⟩]⟩
  have hd : 2 ^ 4 < Word.limit := by decide
  obtain ⟨hfault, -, -, -⟩ := stiffness_assembly p hd [q, q']
  obtain ⟨-, -, hanswers, -⟩ := stiffness_assembly p hd [q]
  obtain ⟨stiff, hstiff, hentries⟩ := hanswers (by decide +kernel)
  refine ⟨hd, p, q, q', rfl, rfl, rfl, rfl, rfl, hfault q' rfl, rfl, stiff, hstiff, ?_, ?_⟩
  · rw [hentries]
    decide +kernel
  · rw [hentries]
    decide +kernel

end TensorMechanics.Elasticity
