import Mathlib
import TensorMechanics.Proofs.Element.Kinematics

/-!
# Proofs: what becomes of the kinematics at a point

The Jacobian `J` is the sum of the outer products of the nodes and the reference gradients. Three things
can happen. Lists of unequal length stop the computation, a Jacobian whose determinant is zero is
reported as singular, and any other Jacobian has kinematics, with a warning if the determinant is
negative.

The physical gradients are the solutions of `Jᵀ ∇N_A = g_A`, so the sum of the outer products of the nodes
and the physical gradients is the identity. If the reference gradients sum to zero, the physical ones do,
and no translation of the nodes is noticed.
-/

namespace TensorMechanics.Element

open Tensor TensorMechanics.LinearAlgebra Matrix

variable {α : Type} {d : Nat}

section Ring

variable [ExactRing α] {nodes gradients : List (Tensor α d 1)}

/-! ## Sums of outer products -/

/-- The sum of the outer products of the vectors of two lists, pair by pair. -/
def dyads (xs gs : List (Tensor α d 1)) : Matrix (Fin d) (Fin d) α :=
  ((xs.zip gs).map fun x => vecMulVec x.1.get₁ x.2.get₁).sum

/-- An entry of a sum of matrices. -/
theorem sum_map_apply {β : Type} (xs : List β) (f : β → Matrix (Fin d) (Fin d) α) (i j : Fin d) :
    (xs.map f).sum i j = (xs.map fun x => f x i j).sum := by
  have hentry := map_list_sum (entryAddMonoidHom α i j) (xs.map f)
  rw [List.map_map] at hentry
  exact hentry

theorem dyads_apply (xs gs : List (Tensor α d 1)) (i j : Fin d) :
    dyads xs gs i j = ((xs.zip gs).map fun x => x.1.get₁ i * x.2.get₁ j).sum :=
  sum_map_apply _ _ i j

theorem nodalJacobian_eq_dyads (hd : d ^ 2 < Word.limit) :
    nodalJacobian nodes gradients = .ok (.ofMatrix (dyads nodes gradients)) := by
  have hzero : ∀ i j, (Tensor.zeros α d 2).get₂ i j = 0 := get₂_zeros
  rw [nodalJacobian, foldlM_addOuter hd]
  simp only [hzero, zero_add, ← dyads_apply, ofMatrix]

theorem sum_map_mulVec (m : Matrix (Fin d) (Fin d) α) (gs : List (Tensor α d 1)) :
    (gs.map fun g => m *ᵥ g.get₁).sum = m *ᵥ (gs.map get₁).sum := by
  have hsum := map_list_sum (mulVecLin m) (gs.map get₁)
  rw [List.map_map] at hsum
  exact hsum.symm

theorem sum_map_vecMulVec (t : Fin d → α) (gs : List (Tensor α d 1)) :
    (gs.map fun g => vecMulVec t g.get₁).sum = vecMulVec t (gs.map get₁).sum := by
  induction gs with
  | nil => exact (vecMulVec_zero t).symm
  | cons g gs ih => rw [List.map_cons, List.sum_cons, ih, List.map_cons, List.sum_cons, vecMulVec_add]

/-! ## Physical gradients -/

theorem get₁_physicalGradient (inverse : Tensor α d 2) (g : Tensor α d 1) :
    (physicalGradient inverse g).get₁ = inverse.toMatrixᵀ *ᵥ g.get₁ := by
  funext l
  exact get₁_ofFn₁ _ l

theorem dyads_map_physicalGradient (xs gs : List (Tensor α d 1)) (inverse : Tensor α d 2) :
    dyads xs (gs.map (physicalGradient inverse)) = dyads xs gs * inverse.toMatrix := by
  rw [dyads, dyads, ← List.sum_map_mul_right, List.zip_map_right, List.map_map]
  refine congrArg List.sum (List.map_congr_left fun x _ => ?_)
  rw [vecMulVec_mul, ← mulVec_transpose, ← get₁_physicalGradient]
  rfl

/-- The physical gradient solves `Jᵀ v = g`. -/
theorem mulVec_physicalGradient {m : Matrix (Fin d) (Fin d) α} {inverse : Tensor α d 2}
    (h : m * inverse.toMatrix = 1) (g : Tensor α d 1) :
    mᵀ *ᵥ (physicalGradient inverse g).get₁ = g.get₁ := by
  have hleft : inverse.toMatrix * m = 1 := mul_eq_one_comm.mp h
  rw [get₁_physicalGradient, mulVec_mulVec, ← transpose_mul, hleft, transpose_one, one_mulVec]

theorem sum_map_physicalGradient (inverse : Tensor α d 2) (hsum : (gradients.map get₁).sum = 0) :
    ((gradients.map (physicalGradient inverse)).map get₁).sum = 0 := by
  rw [List.map_map]
  show (gradients.map fun g => (physicalGradient inverse g).get₁).sum = 0
  simp only [get₁_physicalGradient]
  rw [sum_map_mulVec, hsum, mulVec_zero]

/-! ## Translations -/

/-- A position moved by a vector. -/
def translate (t x : Tensor α d 1) : Tensor α d 1 := .ofFn₁ (x.get₁ + t.get₁)

theorem get₁_translate (t x : Tensor α d 1) : (translate t x).get₁ = x.get₁ + t.get₁ := by
  funext i
  exact get₁_ofFn₁ _ i

/-- Moving all positions by one vector adds its outer product with the sum of the gradients, which is
zero. -/
theorem dyads_map_translate (hlen : nodes.length = gradients.length)
    (hsum : (gradients.map get₁).sum = 0) (t : Tensor α d 1) :
    dyads (nodes.map (translate t)) gradients = dyads nodes gradients := by
  have hsecond : ((nodes.zip gradients).map fun x => vecMulVec t.get₁ x.2.get₁) =
      gradients.map fun g => vecMulVec t.get₁ g.get₁ := by
    conv_rhs => rw [← List.map_snd_zip hlen.ge, List.map_map]
    rfl
  calc dyads (nodes.map (translate t)) gradients
      = ((nodes.zip gradients).map fun x =>
          vecMulVec x.1.get₁ x.2.get₁ + vecMulVec t.get₁ x.2.get₁).sum := by
        rw [dyads, List.zip_map_left, List.map_map]
        refine congrArg List.sum (List.map_congr_left fun x _ => ?_)
        rw [← add_vecMulVec, ← get₁_translate]
        rfl
    _ = dyads nodes gradients + vecMulVec t.get₁ (gradients.map get₁).sum := by
        rw [List.sum_map_add, hsecond, sum_map_vecMulVec, dyads]
    _ = dyads nodes gradients := by rw [hsum, vecMulVec_zero, add_zero]

end Ring

/-! ## Three outcomes -/

theorem ofChecked_ok_bind {β γ : Type} (x : β) (f : β → Logged (Notice α) (Error α) γ) :
    (ofChecked (.ok x) >>= f) = f x := rfl

namespace Kinematics

variable {nodes gradients : List (Tensor α d 1)} {weight : α}

theorem atPoint_of_length_ne [RealScalar α] (h : nodes.length ≠ gradients.length) :
    atPoint nodes gradients weight =
      .fail (.stopped (.gradientCount nodes.length gradients.length)) :=
  if_pos h

section Field

variable [ExactField α]

theorem atPoint_of_det_eq_zero (hd : 1 ≤ d ∧ d ≤ 3) (hlen : nodes.length = gradients.length)
    (hdet : (dyads nodes gradients).det = 0) :
    atPoint nodes gradients weight = .fail (.singular 0) := by
  have hlimit : d ^ 2 < Word.limit := MultiIndex.pow_lt_limit (pow_four_lt_limit hd) (by decide)
  have hmatrix : (ofMatrix (dyads nodes gradients)).toMatrix.det = 0 := by rwa [toMatrix_ofMatrix]
  have hinverse := (inverse?_eq_none hd).mpr hmatrix
  rw [atPoint, if_neg (not_not.mpr hlen), nodalJacobian_eq_dyads hlimit, ofChecked_ok_bind]
  simp only [hinverse, determinant_eq_det hd, hmatrix]

/-- A Jacobian whose determinant is not zero has kinematics, and the only event that may be reported is
the warning. -/
theorem exists_atPoint_of_det_ne_zero (hd : 1 ≤ d ∧ d ≤ 3) (hlen : nodes.length = gradients.length)
    (weight : α) (hdet : (dyads nodes gradients).det ≠ 0) :
    ∃ inverse : Tensor α d 2, dyads nodes gradients * inverse.toMatrix = 1 ∧
      atPoint nodes gradients weight =
        ⟨if RealScalar.below (dyads nodes gradients).det 0 then
            [.inverted (dyads nodes gradients).det] else [],
          .ok ⟨.ofMatrix (dyads nodes gradients), (dyads nodes gradients).det,
            RealScalar.abs (dyads nodes gradients).det * weight,
            gradients.map (physicalGradient inverse)⟩⟩ := by
  have hlimit : d ^ 2 < Word.limit := MultiIndex.pow_lt_limit (pow_four_lt_limit hd) (by decide)
  have hmatrix : (ofMatrix (dyads nodes gradients)).toMatrix.det ≠ 0 := by rwa [toMatrix_ofMatrix]
  obtain ⟨inverse, hinverse, hproduct⟩ := exists_inverse?_eq_some hd hmatrix
  refine ⟨inverse, by rwa [toMatrix_ofMatrix] at hproduct, ?_⟩
  rw [atPoint, if_neg (not_not.mpr hlen), nodalJacobian_eq_dyads hlimit, ofChecked_ok_bind]
  simp only [hinverse, determinant_eq_det hd, toMatrix_ofMatrix, mapM_matrixVector hlimit]
  split
  · rfl
  · rfl

theorem exists_result_iff (hd : 1 ≤ d ∧ d ≤ 3) (weight : α) :
    (∃ q, (atPoint nodes gradients weight).result = .ok q) ↔
      nodes.length = gradients.length ∧ (dyads nodes gradients).det ≠ 0 := by
  constructor
  · rintro ⟨q, hq⟩
    by_cases hlen : nodes.length = gradients.length
    · refine ⟨hlen, fun hdet => ?_⟩
      rw [atPoint_of_det_eq_zero hd hlen hdet] at hq
      cases hq
    · rw [atPoint_of_length_ne hlen] at hq
      cases hq
  · rintro ⟨hlen, hdet⟩
    obtain ⟨inverse, -, hrun⟩ := exists_atPoint_of_det_ne_zero hd hlen weight hdet
    exact ⟨_, congrArg Logged.result hrun⟩

theorem determinant_of_result (hd : 1 ≤ d ∧ d ≤ 3) {q : Kinematics α d}
    (h : (atPoint nodes gradients weight).result = .ok q) :
    q.determinant ≠ 0 ∧ q.determinant = (dyads nodes gradients).det ∧
      q.jxw = RealScalar.abs q.determinant * weight := by
  obtain ⟨hlen, hdet⟩ := (exists_result_iff hd weight).mp ⟨q, h⟩
  obtain ⟨inverse, -, hrun⟩ := exists_atPoint_of_det_ne_zero hd hlen weight hdet
  rw [hrun] at h
  obtain rfl := Except.ok.inj h
  exact ⟨hdet, rfl, rfl⟩

theorem stopped_iff (hd : 1 ≤ d ∧ d ≤ 3) :
    (∃ fault, (atPoint nodes gradients weight).result = .error (.stopped fault)) ↔
      nodes.length ≠ gradients.length := by
  constructor
  · rintro ⟨fault, hfault⟩ hlen
    by_cases hdet : (dyads nodes gradients).det = 0
    · rw [atPoint_of_det_eq_zero hd hlen hdet] at hfault
      cases hfault
    · obtain ⟨q, hq⟩ := (exists_result_iff hd weight).mpr ⟨hlen, hdet⟩
      rw [hq] at hfault
      cases hfault
  · intro hlen
    rw [atPoint_of_length_ne hlen]
    exact ⟨_, rfl⟩

theorem singular_iff (hd : 1 ≤ d ∧ d ≤ 3) (hlen : nodes.length = gradients.length) :
    atPoint nodes gradients weight = .fail (.singular 0) ↔ (dyads nodes gradients).det = 0 := by
  refine ⟨fun hfail => ?_, atPoint_of_det_eq_zero hd hlen⟩
  by_contra hdet
  obtain ⟨q, hq⟩ := (exists_result_iff hd weight).mpr ⟨hlen, hdet⟩
  rw [hfail] at hq
  cases hq

theorem atPoint_map_translate (hd : 1 ≤ d ∧ d ≤ 3) (hlen : nodes.length = gradients.length)
    (hsum : (gradients.map get₁).sum = 0) (t : Tensor α d 1) :
    atPoint (nodes.map (translate t)) gradients weight = atPoint nodes gradients weight := by
  have hlimit : d ^ 2 < Word.limit := MultiIndex.pow_lt_limit (pow_four_lt_limit hd) (by decide)
  simp only [atPoint, List.length_map, nodalJacobian_eq_dyads hlimit, dyads_map_translate hlen hsum]

end Field

/-- The kinematics at a point over an ordered field, up to dimension three. They stop exactly if the
lists have unequal lengths. For lists of equal length, with `J` the sum of the outer products of nodes
and reference gradients, the Jacobian is reported as singular, without a warning, exactly if `det J` is
zero. Otherwise the kinematics hold `J`, its determinant and `|det J|` times the weight, there is one
warning if the determinant is negative and else none, the physical gradients are dual to the nodes and
solve `Jᵀ ∇N_A = g_A`, and they sum to zero if the reference gradients do. In that case moving all nodes
by one vector changes nothing. -/
theorem atPoint_outcome [ExactOrderedField α] (hd : 1 ≤ d ∧ d ≤ 3)
    (nodes gradients : List (Tensor α d 1)) (weight : α) :
    ((∃ fault, (atPoint nodes gradients weight).result = .error (.stopped fault)) ↔
      nodes.length ≠ gradients.length) ∧
    (nodes.length = gradients.length →
      (atPoint nodes gradients weight = .fail (.singular 0) ↔ (dyads nodes gradients).det = 0) ∧
      ((dyads nodes gradients).det ≠ 0 → ∃ q,
        atPoint nodes gradients weight =
          ⟨if q.determinant < 0 then [.inverted q.determinant] else [], .ok q⟩ ∧
        q.jacobian.toMatrix = dyads nodes gradients ∧
        q.determinant = LinearAlgebra.determinant q.jacobian ∧
        q.determinant = (dyads nodes gradients).det ∧
        q.jxw = |q.determinant| * weight ∧
        dyads nodes q.gradients = 1 ∧
        q.gradients.map (fun v => q.jacobian.toMatrixᵀ *ᵥ v.get₁) = gradients.map get₁ ∧
        ((gradients.map get₁).sum = 0 → (q.gradients.map get₁).sum = 0)) ∧
      ((gradients.map get₁).sum = 0 → ∀ t, atPoint (nodes.map (translate t)) gradients weight =
        atPoint nodes gradients weight)) := by
  refine ⟨stopped_iff hd, fun hlen => ⟨singular_iff hd hlen, fun hdet => ?_,
    fun hsum t => atPoint_map_translate hd hlen hsum t⟩⟩
  obtain ⟨inverse, hinverse, hrun⟩ := exists_atPoint_of_det_ne_zero hd hlen weight hdet
  simp only [ExactOrderedField.below_iff, ExactOrderedField.abs_eq] at hrun
  refine ⟨⟨.ofMatrix (dyads nodes gradients), (dyads nodes gradients).det,
    |(dyads nodes gradients).det| * weight, gradients.map (physicalGradient inverse)⟩, hrun,
    toMatrix_ofMatrix _, ?_, rfl, rfl, ?_, ?_, sum_map_physicalGradient inverse⟩
  · rw [determinant_eq_det hd, toMatrix_ofMatrix]
  · rw [dyads_map_physicalGradient, hinverse]
  · rw [List.map_map]
    refine List.map_congr_left fun g _ => ?_
    simp only [Function.comp_apply, toMatrix_ofMatrix, mulVec_physicalGradient hinverse]

/-- A triangle whose nodes run clockwise, over the rational numbers. -/
theorem atPoint_outcome_clockwise :
    (1 ≤ 2 ∧ 2 ≤ 3) ∧ ∃ (nodes gradients : List (Tensor ℚ 2 1)) (q : Kinematics ℚ 2),
      nodes = [⟨#v[0, 0]⟩, ⟨#v[0, 1]⟩, ⟨#v[2, 0]⟩] ∧
      gradients = [⟨#v[-1, -1]⟩, ⟨#v[1, 0]⟩, ⟨#v[0, 1]⟩] ∧
      (gradients.map get₁).sum = 0 ∧ (dyads nodes gradients).det = -2 ∧
      atPoint nodes gradients (1 / 2) = ⟨[.inverted (-2)], .ok q⟩ ∧ q.jxw = 1 ∧
      dyads nodes q.gradients = 1 ∧ (q.gradients.map get₁).sum = 0 ∧
      atPoint (nodes.map (translate ⟨#v[5, 7]⟩)) gradients (1 / 2) = ⟨[.inverted (-2)], .ok q⟩ := by
  let nodes : List (Tensor ℚ 2 1) := [⟨#v[0, 0]⟩, ⟨#v[0, 1]⟩, ⟨#v[2, 0]⟩]
  let gradients : List (Tensor ℚ 2 1) := [⟨#v[-1, -1]⟩, ⟨#v[1, 0]⟩, ⟨#v[0, 1]⟩]
  have hd : 1 ≤ 2 ∧ 2 ≤ 3 := by decide
  have hlen : nodes.length = gradients.length := rfl
  have hsum : (gradients.map get₁).sum = 0 := by decide +kernel
  have hdet : (dyads nodes gradients).det = -2 := by
    rw [det_fin_two]
    decide +kernel
  have hne : (dyads nodes gradients).det ≠ 0 := by
    rw [hdet]
    decide
  obtain ⟨-, hregular, htranslate⟩ := (atPoint_outcome hd nodes gradients (1 / 2)).2 hlen
  obtain ⟨q, hrun, -, -, hq, hjxw, hdual, -, hbalanced⟩ := hregular hne
  rw [hdet] at hq
  rw [hq, if_pos (by decide)] at hrun
  refine ⟨hd, nodes, gradients, q, rfl, rfl, hsum, hdet, hrun, ?_, hdual, hbalanced hsum, ?_⟩
  · rw [hjxw, hq]
    decide +kernel
  · rw [htranslate hsum, hrun]

end Kinematics

end TensorMechanics.Element
