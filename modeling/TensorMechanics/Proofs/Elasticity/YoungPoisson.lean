import Mathlib
import TensorMechanics.Proofs.Elasticity.Stress
import TensorMechanics.Proofs.LinearAlgebra.Inverse

/-!
# Proofs: the moduli of engineers

Young's modulus and Poisson's ratio describe what a bar does that is pulled along its axis. An extension
`e` of the axis goes with a contraction of both other directions by `poisson` times `e`, and then the
stress is `young` times `e` along the axis, and there is no other one. The Lamé parameters of the same
material must answer that strain with that stress.

Without its divisions the conversion says `2 mu (1 + poisson) = young` and
`lambda (1 - 2 poisson) = 2 mu poisson`. The trace of the strain is `(1 - 2 poisson) e`, so the second
equation gives the part of the stress that comes from `lambda`. Both equations together also show that the
parameters determine the moduli, as long as `mu` is not zero.
-/

namespace TensorMechanics.Elasticity

open Tensor

variable {α : Type} {d : Nat}

/-! ## Strains along the axes -/

section Ring

variable [ExactRing α]

/-- The matrix with the given diagonal and zeros elsewhere. -/
def principal (v : Fin d → α) : Tensor α d 2 := .ofMatrix (Matrix.diagonal v)

theorem get₂_principal (v : Fin d → α) (i j : Fin d) :
    (principal v).get₂ i j = if i = j then v i else 0 := by
  rw [principal, ofMatrix, get₂_ofFn₂, Matrix.diagonal_apply]

/-- A strain along the axes has a stress along the axes. -/
theorem stress_principal (p : LameParameters α) (v : Fin d → α) (hd : d ^ 4 < Word.limit) :
    p.stress (principal v) = .ok (principal fun i => p.lambda * ∑ k, v k + 2 * p.mu * v i) := by
  rw [stress_eq p _ hd]
  refine congrArg Except.ok (ext_get₂ fun i j => ?_)
  simp only [get₂_stressTensor, get₂_principal, delta, if_true]
  by_cases hij : i = j
  · subst hij
    simp only [if_true]
    ring
  · simp [hij, Ne.symm hij]

end Ring

/-! ## The conversion without its divisions -/

namespace YoungPoisson

variable [ExactField α] {p q : YoungPoisson α}

/-- The moduli for which no denominator of the conversion is zero. -/
structure Admissible (p : YoungPoisson α) : Prop where
  one_add_ne : 1 + p.poisson ≠ 0
  one_sub_ne : 1 - 2 * p.poisson ≠ 0

theorem two_mul_mu (h2 : (2 : α) ≠ 0) (hp : p.Admissible) :
    2 * p.toLame.mu * (1 + p.poisson) = p.young := by
  have hmu : p.toLame.mu = 1 / 2 * p.young / (1 + p.poisson) := by
    rw [toLame, RealScalar.half_eq]
  have hne := hp.one_add_ne
  rw [hmu]
  field_simp

theorem lambda_mul (hp : p.Admissible) :
    p.toLame.lambda * (1 - 2 * p.poisson) = 2 * p.toLame.mu * p.poisson := by
  have hlambda : p.toLame.lambda = 2 * p.toLame.mu * p.poisson / (1 - 2 * p.poisson) := by
    simp only [toLame, RealScalar.natural_eq_cast, Nat.cast_ofNat]
  rw [hlambda, div_mul_cancel₀ _ hp.one_sub_ne]

theorem mu_ne_zero (h2 : (2 : α) ≠ 0) (hp : p.Admissible) (hyoung : p.young ≠ 0) :
    p.toLame.mu ≠ 0 := by
  intro hmu
  apply hyoung
  rw [← two_mul_mu h2 hp, hmu, mul_zero, zero_mul]

/-- A bar that is extended along the first axis and contracts across it has stress along this axis only. -/
theorem stress_uniaxial (h2 : (2 : α) ≠ 0) (hp : p.Admissible) (e : α) :
    p.toLame.stress (principal ![e, -p.poisson * e, -p.poisson * e]) =
      .ok (principal ![p.young * e, 0, 0]) := by
  have hmu := two_mul_mu h2 hp
  have hlambda := lambda_mul hp
  have htrace : ∑ k, ![e, -p.poisson * e, -p.poisson * e] k = (1 - 2 * p.poisson) * e := by
    rw [Fin.sum_univ_three]
    simp
    ring
  have hdiagonal : (fun i => p.toLame.lambda * ∑ k, ![e, -p.poisson * e, -p.poisson * e] k +
      2 * p.toLame.mu * ![e, -p.poisson * e, -p.poisson * e] i) = ![p.young * e, 0, 0] := by
    funext i
    rw [htrace]
    fin_cases i
    · show p.toLame.lambda * ((1 - 2 * p.poisson) * e) + 2 * p.toLame.mu * e = p.young * e
      linear_combination e * hlambda + e * hmu
    all_goals
      show p.toLame.lambda * ((1 - 2 * p.poisson) * e) + 2 * p.toLame.mu * (-p.poisson * e) = 0
      linear_combination e * hlambda
  rw [stress_principal _ _ (by decide), hdiagonal]

/-- The Lamé parameters determine Poisson's ratio, because `poisson` times `2 (lambda + mu)` is `lambda`
and `lambda + mu` is not zero, and with it Young's modulus. -/
theorem eq_of_toLame_eq (h2 : (2 : α) ≠ 0) (hp : p.Admissible) (hq : q.Admissible)
    (hyoung : p.young ≠ 0) (h : p.toLame = q.toLame) : p = q := by
  have hlambdaP := lambda_mul hp
  have hlambdaQ := lambda_mul hq
  have hyoungP := two_mul_mu h2 hp
  have hyoungQ := two_mul_mu h2 hq
  have hmu := mu_ne_zero h2 hp hyoung
  rw [← h] at hlambdaQ hyoungQ
  have hsum : 2 * (p.toLame.lambda + p.toLame.mu) ≠ 0 := by
    have hproduct : (p.toLame.lambda + p.toLame.mu) * (1 - 2 * p.poisson) = p.toLame.mu := by
      linear_combination hlambdaP
    refine mul_ne_zero h2 fun hzero => hmu ?_
    rw [← hproduct, hzero, zero_mul]
  have hpoisson : p.poisson = q.poisson := by
    refine mul_left_cancel₀ hsum ?_
    linear_combination hlambdaQ - hlambdaP
  have hyoung' : p.young = q.young := by
    rw [← hyoungP, ← hyoungQ, hpoisson]
  cases p
  cases q
  simp only at hpoisson hyoung'
  rw [hpoisson, hyoung']

/-- For admissible moduli, the Lamé parameters answer the strain of a bar that is pulled along the first axis
with the stress `young` times the extension along this axis. If Young's modulus is not zero, the shear
modulus is not zero, and different moduli have different Lamé parameters. -/
theorem toLame_uniaxial (h2 : (2 : α) ≠ 0) (hp : p.Admissible) :
    (∀ e, p.toLame.stress (principal ![e, -p.poisson * e, -p.poisson * e]) =
      .ok (principal ![p.young * e, 0, 0])) ∧
    (p.young ≠ 0 → p.toLame.mu ≠ 0 ∧
      ∀ q : YoungPoisson α, q.Admissible → q.young ≠ 0 → p ≠ q → p.toLame ≠ q.toLame) :=
  ⟨stress_uniaxial h2 hp, fun hyoung => ⟨mu_ne_zero h2 hp hyoung, fun _q hq _ hne heq =>
    hne (eq_of_toLame_eq h2 hp hq hyoung heq)⟩⟩

/-- Two materials over the rational numbers with the same ratio. -/
theorem toLame_uniaxial_rational :
    (2 : ℚ) ≠ 0 ∧ ∃ p q : YoungPoisson ℚ, p = ⟨210, 1 / 4⟩ ∧ q = ⟨200, 1 / 4⟩ ∧
      p.Admissible ∧ q.Admissible ∧ p.toLame.mu = 84 ∧ p.toLame.lambda = 84 ∧
      p.toLame.stress (⟨#v[8, 0, 0, 0, -2, 0, 0, 0, -2]⟩ : Tensor ℚ 3 2) =
        .ok ⟨#v[1680, 0, 0, 0, 0, 0, 0, 0, 0]⟩ ∧
      p.toLame ≠ q.toLame := by
  let p : YoungPoisson ℚ := ⟨210, 1 / 4⟩
  let q : YoungPoisson ℚ := ⟨200, 1 / 4⟩
  have h2 : (2 : ℚ) ≠ 0 := by decide
  have hp : p.Admissible := ⟨by decide +kernel, by decide +kernel⟩
  have hq : q.Admissible := ⟨by decide +kernel, by decide +kernel⟩
  obtain ⟨hstress, hmoduli⟩ := toLame_uniaxial h2 hp
  obtain ⟨-, hdifferent⟩ := hmoduli (by decide +kernel)
  have hstrain : principal ![8, -p.poisson * 8, -p.poisson * 8] =
      ⟨#v[8, 0, 0, 0, -2, 0, 0, 0, -2]⟩ := ext_get₂ (by decide +kernel)
  have hstressed : principal ![p.young * 8, 0, 0] = ⟨#v[1680, 0, 0, 0, 0, 0, 0, 0, 0]⟩ :=
    ext_get₂ (by decide +kernel)
  have hne : p ≠ q := by
    intro h
    have hyoung := congrArg YoungPoisson.young h
    revert hyoung
    decide +kernel
  refine ⟨h2, p, q, rfl, rfl, hp, hq, by decide +kernel, by decide +kernel, ?_,
    hdifferent q hq (by decide +kernel) hne⟩
  rw [← hstrain, ← hstressed]
  exact hstress 8

end YoungPoisson

end TensorMechanics.Elasticity
