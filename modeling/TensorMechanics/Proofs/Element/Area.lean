import Mathlib
import TensorMechanics.Proofs.Element.Interpolation

/-!
# Proofs: the area of a quadrilateral

The Jacobian of the bilinear map has the entries `slope_ij + twist_i ξ_(1-j)`. In its determinant the
terms in `ξ_0 ξ_1` cancel, and the constant term is a quarter of the signed area. The points of the
quadrature rule lie symmetrically to the center, so the determinants at the four points sum to the signed
area, however far from the center the points are. Their absolute values sum to the area exactly if no two
of the determinants differ in sign.
-/

namespace TensorMechanics

/-- Nonzero numbers have a sum as large as the sum of their absolute values exactly if they agree in
sign. -/
theorem sum_abs_eq_abs_sum_iff {ι α : Type} [Fintype ι] [AddCommGroup α] [LinearOrder α]
    [IsOrderedAddMonoid α] {f : ι → α} (hf : ∀ i, f i ≠ 0) :
    ∑ i, |f i| = |∑ i, f i| ↔ (∀ i, 0 < f i) ∨ ∀ i, f i < 0 := by
  constructor
  · intro h
    rcases le_total 0 (∑ i, f i) with hsum | hsum
    · left
      rw [abs_of_nonneg hsum, eq_comm, Finset.sum_eq_sum_iff_of_le fun i _ => le_abs_self (f i)] at h
      intro i
      have hi : f i = |f i| := h i (Finset.mem_univ i)
      exact lt_of_le_of_ne (hi ▸ abs_nonneg (f i)) (hf i).symm
    · right
      rw [abs_of_nonpos hsum, ← Finset.sum_neg_distrib, eq_comm,
        Finset.sum_eq_sum_iff_of_le fun i _ => neg_le_abs (f i)] at h
      intro i
      have hi : -f i = |f i| := h i (Finset.mem_univ i)
      exact lt_of_le_of_ne (neg_nonneg.mp (hi ▸ abs_nonneg (f i))) (hf i)
  · rintro (h | h)
    · rw [abs_of_nonneg (Finset.sum_nonneg fun i _ => (h i).le)]
      exact Finset.sum_congr rfl fun i _ => abs_of_pos (h i)
    · rw [abs_of_nonpos (Finset.sum_nonpos fun i _ => (h i).le), ← Finset.sum_neg_distrib]
      exact Finset.sum_congr rfl fun i _ => abs_of_neg (h i)

namespace Element

open Tensor TensorMechanics.LinearAlgebra Matrix

variable {α : Type}

namespace Quad4

section Field

variable [ExactField α] (corners : Vector (Tensor α 2 1) 4)

/-! ## The Jacobian of the bilinear map -/

/-- The constant part of an entry of the Jacobian. -/
def slope (i j : Fin 2) : α := (∑ a, (corners.get a).get₁ i * vertex a j) / 4

/-- The coefficient of the other reference coordinate in the entries of a row. -/
def twist (i : Fin 2) : α := (∑ a, (corners.get a).get₁ i * (vertex a 0 * vertex a 1)) / 4

/-- Half the cross product of the diagonals: the area, negative for corners that run clockwise. -/
def signedArea : α :=
  let x a := (corners.get a).get₁
  ((x 2 0 - x 0 0) * (x 3 1 - x 1 1) - (x 3 0 - x 1 0) * (x 2 1 - x 0 1)) / 2

theorem vertex_mul_vertex (a : Fin 4) (j : Fin 2) :
    (vertex a j * vertex a (1 - j) : α) = vertex a 0 * vertex a 1 := by
  fin_cases j
  · rfl
  · exact mul_comm _ _

theorem dyads_gradients_apply (xi : Tensor α 2 1) (i j : Fin 2) :
    dyads corners.toList (gradients xi) i j =
      slope corners i j + twist corners i * xi.get₁ (1 - j) := by
  have hgradients : (gradients xi).length = 4 := by simp [gradients]
  have hcorner : ∀ a : Fin 4, component corners.toList a i = (corners.get a).get₁ i := fun a =>
    component_eq (by simp) i
  have hgradient : ∀ a : Fin 4, component (gradients xi) a j =
      vertex a j * (1 + vertex a (1 - j) * xi.get₁ (1 - j)) / 4 := by
    intro a
    have ha : a.val < (gradients xi).length := a.isLt.trans_eq hgradients.symm
    rw [component_eq ha]
    simp only [gradients, List.getElem_map, List.getElem_finRange, get₁_gradient]
    rfl
  rw [dyads_apply, sum_zip_get₁ corners.length_toList hgradients, slope, twist, ← mul_div_right_comm,
    ← add_div, Finset.sum_mul, ← Finset.sum_add_distrib, Finset.sum_div]
  refine Finset.sum_congr rfl fun a _ => ?_
  rw [hcorner, hgradient, ← vertex_mul_vertex a j]
  ring

end Field

/-! ## The area -/

variable [ExactOrderedField α] (corners : Vector (Tensor α 2 1) 4)

theorem slope_mul_slope_sub :
    slope corners 0 0 * slope corners 1 1 - slope corners 0 1 * slope corners 1 0 =
      signedArea corners / 4 := by
  simp only [slope, Fin.sum_univ_four, vertex, signedArea]
  ring

/-- The determinant is affine in the reference point. -/
theorem det_jacobian (xi : Tensor α 2 1) :
    (dyads corners.toList (gradients xi)).det = signedArea corners / 4 +
      (slope corners 0 0 * twist corners 1 - twist corners 0 * slope corners 1 0) * xi.get₁ 0 +
      (twist corners 0 * slope corners 1 1 - slope corners 0 1 * twist corners 1) * xi.get₁ 1 := by
  rw [det_fin_two, ← slope_mul_slope_sub]
  simp only [dyads_gradients_apply, Fin.isValue, sub_zero, sub_self]
  ring

theorem sum_det_jacobian :
    ∑ a, (dyads corners.toList (gradients (gaussPoint a))).det = signedArea corners := by
  have hcentered : ∀ c, ∑ a : Fin 4, (gaussPoint a : Tensor α 2 1).get₁ c = 0 := by
    intro c
    simp only [gaussPoint, get₁_ofFn₁, ← Finset.mul_sum, sum_vertex, mul_zero]
  simp only [det_jacobian, Finset.sum_add_distrib, ← Finset.mul_sum, hcentered, mul_zero, add_zero]
  rw [Finset.sum_const, Finset.card_univ, Fintype.card_fin, nsmul_eq_mul]
  exact mul_div_cancel₀ _ four_ne_zero

/-- Each of the four points has the determinant of its Jacobian, which is not zero, and the absolute value
of it as weight. -/
theorem exists_points {points : List (Kinematics α 2)} (h : (kinematics corners).result = .ok points) :
    ∃ q : Fin 4 → Kinematics α 2, points = (List.finRange 4).map q ∧ ∀ a,
      (q a).determinant ≠ 0 ∧ (q a).jxw = |(q a).determinant| ∧
      (q a).determinant = (dyads corners.toList (gradients (gaussPoint a))).det := by
  have hd : 1 ≤ 2 ∧ 2 ≤ 3 := by decide
  obtain ⟨q, hpoints, hq⟩ := Logged.result_traverse_finRange_eq_ok.mp h
  refine ⟨q, hpoints, fun a => ?_⟩
  obtain ⟨hnonzero, hdet, hjxw⟩ := Kinematics.determinant_of_result hd (hq a)
  exact ⟨hnonzero, by rw [hjxw, ExactOrderedField.abs_eq, mul_one], hdet⟩

theorem exists_kinematics_iff : (∃ points, (kinematics corners).result = .ok points) ↔
    ∀ a, (dyads corners.toList (gradients (gaussPoint a))).det ≠ 0 := by
  constructor
  · rintro ⟨points, h⟩ a
    obtain ⟨q, -, hq⟩ := exists_points corners h
    obtain ⟨hnonzero, -, hdet⟩ := hq a
    exact hdet ▸ hnonzero
  · intro hdet
    have hd : 1 ≤ 2 ∧ 2 ≤ 3 := by decide
    have hpoint : ∀ a, ∃ q,
        (Kinematics.atPoint corners.toList (gradients (gaussPoint a)) 1).result = .ok q := fun a =>
      (Kinematics.exists_result_iff hd 1).mpr ⟨by simp [gradients], hdet a⟩
    obtain ⟨q, hq⟩ := Classical.skolem.mp hpoint
    exact ⟨_, Logged.result_traverse_finRange_eq_ok.mpr ⟨q, rfl, hq⟩⟩

variable {corners}

theorem jxw_pos {points : List (Kinematics α 2)} (h : (kinematics corners).result = .ok points) :
    ∀ q ∈ points, 0 < q.jxw := by
  obtain ⟨q, rfl, hq⟩ := exists_points corners h
  refine List.forall_mem_map.mpr fun a _ => ?_
  rw [(hq a).2.1]
  exact abs_pos.mpr (hq a).1

/-- A quadrilateral whose kinematics exist has four quadrature points. Their weights sum to at least the
area, and to the area itself exactly if the determinants at the points agree in sign. The determinants
sum to the area with its sign. -/
theorem sum_jxw_area {points : List (Kinematics α 2)} (h : (kinematics corners).result = .ok points) :
    points.length = 4 ∧
    |signedArea corners| ≤ (points.map fun q => q.jxw).sum ∧
    ((points.map fun q => q.jxw).sum = |signedArea corners| ↔
      (∀ q ∈ points, 0 < q.determinant) ∨ ∀ q ∈ points, q.determinant < 0) ∧
    (points.map fun q => q.determinant).sum = signedArea corners := by
  obtain ⟨q, rfl, hq⟩ := exists_points corners h
  have hnonzero : ∀ a, (q a).determinant ≠ 0 := fun a => (hq a).1
  have hweights : (((List.finRange 4).map q).map fun q => q.jxw).sum = ∑ a, |(q a).determinant| := by
    rw [List.map_map, ← Fin.sum_univ_def]
    exact Finset.sum_congr rfl fun a _ => (hq a).2.1
  have hsum : ∑ a, (q a).determinant = signedArea corners := by
    rw [← sum_det_jacobian]
    exact Finset.sum_congr rfl fun a _ => (hq a).2.2
  refine ⟨List.length_map _, ?_, ?_, ?_⟩
  · rw [hweights, ← hsum]
    exact Finset.abs_sum_le_sum_abs _ _
  · rw [hweights, ← hsum, sum_abs_eq_abs_sum_iff hnonzero]
    simp only [List.forall_mem_map, List.mem_finRange, forall_const]
  · rw [List.map_map, ← hsum, Fin.sum_univ_def]
    rfl

/-- Two crossing edges over the real numbers. The weights are positive, but the area with its sign is
zero. -/
theorem sum_jxw_area_crossed :
    ∃ (corners : Vector (Tensor ℝ 2 1) 4) (points : List (Kinematics ℝ 2)),
      corners = #v[⟨#v[0, 0]⟩, ⟨#v[1, 1]⟩, ⟨#v[1, 0]⟩, ⟨#v[0, 1]⟩] ∧
      (kinematics corners).result = .ok points ∧ points.length = 4 ∧
      0 < (points.map fun q => q.jxw).sum ∧ (points.map fun q => q.determinant).sum = 0 ∧
      ¬((∀ q ∈ points, 0 < q.determinant) ∨ ∀ q ∈ points, q.determinant < 0) := by
  let corners : Vector (Tensor ℝ 2 1) 4 := #v[⟨#v[0, 0]⟩, ⟨#v[1, 1]⟩, ⟨#v[1, 0]⟩, ⟨#v[0, 1]⟩]
  have harea : signedArea corners = 0 := by
    simp [signedArea, corners, get₁]
  have hvertex : ∀ a, (vertex a 0 : ℝ) ≠ 0 := by
    simp [Fin.forall_fin_succ, vertex]
  have hdet : ∀ a, (dyads corners.toList (gradients (gaussPoint a))).det ≠ 0 := by
    intro a
    have hcoordinate : (gaussPoint a : Tensor ℝ 2 1).get₁ 0 ≠ 0 := by
      have hsqrt : √(3 : ℝ) ≠ 0 := by norm_num
      rw [gaussPoint, get₁_ofFn₁, RealScalar.natural_eq_cast]
      exact mul_ne_zero (one_div_ne_zero hsqrt) (hvertex a)
    rw [det_jacobian, harea]
    simpa [slope, twist, corners, get₁, vertex, Fin.sum_univ_four] using hcoordinate
  obtain ⟨points, hrun⟩ := (exists_kinematics_iff corners).mpr hdet
  obtain ⟨hlength, -, heq, hsum⟩ := sum_jxw_area hrun
  rw [harea] at heq hsum
  have hne : points.map (fun q => q.jxw) ≠ [] := by
    intro hnil
    rw [List.map_eq_nil_iff.mp hnil] at hlength
    cases hlength
  have hpos := List.sum_pos _ (List.forall_mem_map.mpr (jxw_pos hrun)) hne
  refine ⟨corners, points, rfl, hrun, hlength, hpos, hsum, fun hsign => ?_⟩
  exact hpos.ne' ((heq.mpr hsign).trans abs_zero)

end Quad4

end Element

end TensorMechanics
