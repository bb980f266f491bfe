import Mathlib
import TensorMechanics.Element.Quad4
import TensorMechanics.Proofs.Element.RigidMotion

/-!
# Proofs: bilinear interpolation on the reference square

Every coordinate of a corner is one or minus one, and over the four corners the coordinates and their
products sum to zero. So the basis functions sum to one, each is one at its own corner and zero at the
others, and the corners weighted by them give every point back.

A basis function is a product of one factor for each coordinate, so moving a point along an axis changes
one factor only, and the change is the step times the gradient. Together with the two sums this says that
the gradients sum to zero and that the Jacobian of the reference square is the identity; an affine image of
the square then has the matrix of the map as Jacobian.
-/

namespace TensorMechanics.Element.Quad4

open Tensor Matrix

variable {α : Type} [ExactField α]

/-! ## Corners -/

theorem vertex_mul_self (a : Fin 4) (c : Fin 2) : (vertex a c * vertex a c : α) = 1 := by
  fin_cases a <;> fin_cases c <;> simp [vertex]

theorem sum_vertex (c : Fin 2) : ∑ a, (vertex a c : α) = 0 := by
  fin_cases c <;> simp [Fin.sum_univ_four, vertex]

theorem sum_vertex_mul_vertex (c : Fin 2) : ∑ a, (vertex a c * vertex a (1 - c) : α) = 0 := by
  fin_cases c <;> simp [Fin.sum_univ_four, vertex]

/-- Different corners lie opposite to each other along some axis. -/
theorem exists_vertex_mul_vertex_eq {a b : Fin 4} (h : a ≠ b) :
    ∃ c, (vertex a c * vertex b c : α) = -1 := by
  rw [Fin.exists_fin_two]
  fin_cases a <;> fin_cases b <;> simp [vertex] at h ⊢

theorem four_ne_zero_of_two (h : (2 : α) ≠ 0) : (4 : α) ≠ 0 := by
  have hfour : (4 : α) = 2 * 2 := by norm_num
  rw [hfour]
  exact mul_ne_zero h h

/-! ## Basis functions -/

/-- A basis function by the factor of an axis and the factor of the other one. -/
theorem basis_eq (a : Fin 4) (xi : Tensor α 2 1) (c : Fin 2) :
    basis a xi =
      (1 + vertex a c * xi.get₁ c) * (1 + vertex a (1 - c) * xi.get₁ (1 - c)) / 4 := by
  rw [basis, RealScalar.natural_eq_cast, Nat.cast_ofNat]
  fin_cases c
  · rfl
  · rw [mul_comm (1 + vertex a 0 * xi.get₁ 0)]
    rfl

theorem get₁_gradient (a : Fin 4) (xi : Tensor α 2 1) (c : Fin 2) :
    (gradient a xi).get₁ c = vertex a c * (1 + vertex a (1 - c) * xi.get₁ (1 - c)) / 4 := by
  rw [gradient, get₁_ofFn₁, RealScalar.natural_eq_cast, Nat.cast_ofNat]

theorem sum_basis (h2 : (2 : α) ≠ 0) (xi : Tensor α 2 1) : ∑ a, basis a xi = 1 := by
  have hterm : ∀ a, basis a xi = (1 + xi.get₁ 0 * vertex a 0 + xi.get₁ 1 * vertex a 1 +
      xi.get₁ 0 * xi.get₁ 1 * (vertex a 0 * vertex a (1 - 0))) / 4 := by
    intro a
    rw [basis_eq a xi 0, sub_zero]
    ring
  simp only [hterm, ← Finset.sum_div, Finset.sum_add_distrib, ← Finset.mul_sum, sum_vertex,
    sum_vertex_mul_vertex]
  simp [four_ne_zero_of_two h2]

theorem basis_vertex (h2 : (2 : α) ≠ 0) (a b : Fin 4) :
    basis a (.ofFn₁ (vertex b)) = (if a = b then 1 else 0 : α) := by
  have hfour : (4 : α) ≠ 0 := four_ne_zero_of_two h2
  by_cases hab : a = b
  · subst hab
    have hvalue : ((1 + 1) * (1 + 1) : α) = 4 := by norm_num
    rw [basis_eq a _ 0, get₁_ofFn₁, get₁_ofFn₁, vertex_mul_self, vertex_mul_self, hvalue,
      div_self hfour, if_pos rfl]
  · -- the factor of an axis along which the corners are opposite vanishes
    obtain ⟨c, hc⟩ := exists_vertex_mul_vertex_eq (α := α) hab
    rw [basis_eq a _ c, get₁_ofFn₁, hc, add_neg_cancel, zero_mul, zero_div, if_neg hab]

theorem sum_basis_mul_vertex (h2 : (2 : α) ≠ 0) (xi : Tensor α 2 1) (c : Fin 2) :
    ∑ a, basis a xi * vertex a c = xi.get₁ c := by
  have hterm : ∀ a, basis a xi * vertex a c = (vertex a c + vertex a c * vertex a c * xi.get₁ c +
      xi.get₁ (1 - c) * (vertex a c * vertex a (1 - c)) +
      vertex a c * vertex a c * (xi.get₁ c * xi.get₁ (1 - c)) * vertex a (1 - c)) / 4 := by
    intro a
    rw [basis_eq a xi c]
    ring
  simp only [hterm, vertex_mul_self, one_mul, ← Finset.sum_div, Finset.sum_add_distrib,
    ← Finset.mul_sum, sum_vertex, sum_vertex_mul_vertex]
  simp [four_ne_zero_of_two h2]

/-! ## Gradients -/

/-- Moving the point along an axis changes a basis function by the step times the gradient. -/
theorem basis_translate_sub (a : Fin 4) (xi : Tensor α 2 1) (c : Fin 2) (h : α) :
    basis a (translate (.ofFn₁ (Pi.single c h)) xi) - basis a xi = h * (gradient a xi).get₁ c := by
  have haxis : (translate (.ofFn₁ (Pi.single c h)) xi).get₁ c = xi.get₁ c + h := by
    rw [get₁_translate, Pi.add_apply, get₁_ofFn₁, Pi.single_eq_same]
  have hother : (translate (.ofFn₁ (Pi.single c h)) xi).get₁ (1 - c) = xi.get₁ (1 - c) := by
    have hne : ∀ c : Fin 2, 1 - c ≠ c := by decide
    rw [get₁_translate, Pi.add_apply, get₁_ofFn₁, Pi.single_eq_of_ne (hne c), add_zero]
  rw [basis_eq a _ c, basis_eq a xi c, haxis, hother, get₁_gradient]
  ring

theorem gradient_eq_basis_sub (a : Fin 4) (xi : Tensor α 2 1) (c : Fin 2) :
    (gradient a xi).get₁ c = basis a (translate (.ofFn₁ (Pi.single c 1)) xi) - basis a xi := by
  rw [basis_translate_sub, one_mul]

theorem sum_gradient (h2 : (2 : α) ≠ 0) (xi : Tensor α 2 1) (c : Fin 2) :
    ∑ a, (gradient a xi).get₁ c = 0 := by
  simp only [gradient_eq_basis_sub, Finset.sum_sub_distrib, sum_basis h2, sub_self]

theorem sum_vertex_mul_gradient (h2 : (2 : α) ≠ 0) (xi : Tensor α 2 1) (i j : Fin 2) :
    ∑ a, vertex a i * (gradient a xi).get₁ j = (1 : Matrix (Fin 2) (Fin 2) α) i j := by
  have hterm : ∀ a, vertex a i * (gradient a xi).get₁ j =
      basis a (translate (.ofFn₁ (Pi.single j 1)) xi) * vertex a i - basis a xi * vertex a i := by
    intro a
    rw [gradient_eq_basis_sub, mul_comm, sub_mul]
  simp only [hterm, Finset.sum_sub_distrib, sum_basis_mul_vertex h2, get₁_translate, Pi.add_apply,
    get₁_ofFn₁]
  rw [add_sub_cancel_left, Pi.single_apply, Matrix.one_apply]

/-! ## Jacobians -/

theorem length_vertices (xi : Tensor α 2 1) :
    (vertices : List (Tensor α 2 1)).length = (gradients xi).length := by
  rw [vertices, gradients, List.length_map, List.length_map]

theorem sum_gradients (h2 : (2 : α) ≠ 0) (xi : Tensor α 2 1) :
    ((gradients xi).map get₁).sum = 0 := by
  rw [gradients, List.map_map, ← Fin.sum_univ_def]
  funext c
  rw [Finset.sum_apply]
  exact sum_gradient h2 xi c

/-- The reference square has the identity as Jacobian at every point. -/
theorem dyads_vertices (h2 : (2 : α) ≠ 0) (xi : Tensor α 2 1) :
    dyads vertices (gradients xi) = 1 := by
  ext i j
  rw [dyads_apply, vertices, gradients, List.zip_map', List.map_map, ← Fin.sum_univ_def,
    ← sum_vertex_mul_gradient h2 xi i j]
  refine Finset.sum_congr rfl fun a _ => ?_
  exact congrArg (· * (gradient a xi).get₁ j) (get₁_ofFn₁ (vertex a) i)

theorem nodalJacobian_map_move (h2 : (2 : α) ≠ 0) (xi : Tensor α 2 1) (m : Tensor α 2 2)
    (t : Tensor α 2 1) : nodalJacobian (vertices.map (move m t)) (gradients xi) = .ok m := by
  rw [nodalJacobian_eq_dyads (by decide), dyads_map_move (length_vertices xi) (sum_gradients h2 xi),
    dyads_vertices h2, Matrix.mul_one]
  exact congrArg Except.ok (ofFn₂_get₂ m)

/-- The basis functions interpolate: at every point they sum to one and give the point back as a
combination of the corners, and at a corner only its own one does not vanish. Their difference along an
axis is the step times the gradient, whatever the step. The gradients sum to zero, and every affine image
of the reference square has the matrix of the map as Jacobian. -/
theorem basis_interpolates (h2 : (2 : α) ≠ 0) (xi : Tensor α 2 1) :
    ∑ a, basis a xi = 1 ∧
    (∀ a b, basis a (.ofFn₁ (vertex b)) = (if a = b then 1 else 0 : α)) ∧
    ∑ a, basis a xi • vertex a = xi.get₁ ∧
    (∀ a c h, basis a (translate (.ofFn₁ (Pi.single c h)) xi) - basis a xi =
      h * (gradient a xi).get₁ c) ∧
    ((gradients xi).map get₁).sum = 0 ∧
    ∀ m t, nodalJacobian (vertices.map (move m t)) (gradients xi) = .ok m := by
  have hpoint : ∑ a, basis a xi • vertex a = xi.get₁ := by
    funext c
    rw [Finset.sum_apply]
    exact sum_basis_mul_vertex h2 xi c
  exact ⟨sum_basis h2 xi, basis_vertex h2, hpoint, fun a c h => basis_translate_sub a xi c h,
    sum_gradients h2 xi, fun m t => nodalJacobian_map_move h2 xi m t⟩

/-- A step and a sheared square over the rational numbers. -/
theorem basis_interpolates_sheared :
    (2 : ℚ) ≠ 0 ∧ ∃ (xi : Tensor ℚ 2 1) (m : Tensor ℚ 2 2) (corners : List (Tensor ℚ 2 1)),
      xi.toList = [1 / 3, -1 / 5] ∧ m.toList = [2, 3, 0, 5] ∧
      ((List.finRange 4).map fun a => basis a xi) = [1 / 5, 2 / 5, 4 / 15, 2 / 15] ∧
      ∑ a, basis a xi = 1 ∧ ∑ a, basis a xi • vertex a = xi.get₁ ∧
      basis 2 (translate ⟨#v[0, 6]⟩ xi) - basis 2 xi = 6 * (gradient 2 xi).get₁ 1 ∧
      corners = vertices.map (move m ⟨#v[10, 20]⟩) ∧
      corners.map toList = [[5, 15], [9, 15], [15, 25], [11, 25]] ∧
      nodalJacobian corners (gradients xi) = .ok m := by
  let xi : Tensor ℚ 2 1 := ⟨#v[1 / 3, -1 / 5]⟩
  let m : Tensor ℚ 2 2 := ⟨#v[2, 3, 0, 5]⟩
  have h2 : (2 : ℚ) ≠ 0 := by decide
  obtain ⟨hsum, -, hpoint, hdifference, -, hjacobian⟩ := basis_interpolates h2 xi
  have hstep : (.ofFn₁ (Pi.single 1 6) : Tensor ℚ 2 1) = ⟨#v[0, 6]⟩ := rfl
  refine ⟨h2, xi, m, _, rfl, rfl, ?_, hsum, hpoint, ?_, rfl, ?_, hjacobian m ⟨#v[10, 20]⟩⟩
  · decide +kernel
  · rw [← hstep]
    exact hdifference 2 1 6
  · decide +kernel

end TensorMechanics.Element.Quad4
