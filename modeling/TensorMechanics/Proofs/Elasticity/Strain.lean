import Mathlib
import TensorMechanics.Proofs.Elasticity.Stress
import TensorMechanics.Proofs.LinearAlgebra.Product

/-!
# Proofs: strain, stress and energy

The stress of a displacement gradient `H` collapses from a double sum over the elasticity tensor to
`lambda tr(H) I + mu (H + Hᵀ)`. It is symmetric, and it does not change if `H` is replaced by its
symmetric part, which has the same trace and the same sum with its transpose. The energy is half of a
quadratic form in these two, so it does not change either.

All but the last two facts hold in every commutative ring. Those need that the constant one half is a
half of one.
-/

namespace TensorMechanics.Elasticity

open Tensor TensorMechanics.LinearAlgebra RealScalar

variable {α : Type} [ExactRing α] {d : Nat}

/-! ## The closed form -/

theorem toMatrix_stressTensor (p : LameParameters α) (h : Tensor α d 2) :
    (p.stressTensor h).toMatrix =
      (p.lambda * h.toMatrix.trace) • (identity α d).toMatrix +
        p.mu • (h.toMatrix + (transpose h).toMatrix) := by
  ext i j
  have htranspose : (transpose h).get₂ i j = h.get₂ j i := get₂_ofFn₂ _ i j
  simp only [Matrix.add_apply, Matrix.smul_apply, smul_eq_mul, toMatrix_apply, get₂_identity, htranspose,
    get₂_stressTensor, Matrix.trace, Matrix.diag_apply]
  ring

/-- Stresses are symmetric, whatever they are stresses of. -/
theorem transpose_stressTensor (p : LameParameters α) (h : Tensor α d 2) :
    transpose (p.stressTensor h) = p.stressTensor h := by
  refine ext_get₂ fun i j => ?_
  rw [transpose, get₂_ofFn₂, get₂_stressTensor, get₂_stressTensor, delta_comm j i]
  ring

/-! ## The symmetric part -/

/-- The sum with the transpose, times the constant one half. -/
def symmetricPart (h : Tensor α d 2) : Tensor α d 2 :=
  .ofFn₂ fun i j => (h.get₂ i j + h.get₂ j i) * half α

theorem strain_eq (h : Tensor α d 2) (hd : d ^ 2 < Word.limit) : strain h = .ok (symmetricPart h) := by
  have haddressable :
      (Expr.scaled (.sum (.tensor h) (.tensor (transpose h))) (half α)).Addressable := ⟨hd, hd⟩
  rw [strain, Expr.eval_eq_ofFn haddressable hd, ofFn_eq_ofFn₂, symmetricPart]
  simp only [Expr.formula, entryAt_ofComponents₂, transpose, get₂_ofFn₂, id]

section Half

variable (hhalf : 2 * half α = 1) (p : LameParameters α) (h : Tensor α d 2)

include hhalf

theorem symmetricPart_add_transpose (i j : Fin d) :
    (symmetricPart h).get₂ i j + (symmetricPart h).get₂ j i = h.get₂ i j + h.get₂ j i := by
  rw [symmetricPart, get₂_ofFn₂, get₂_ofFn₂]
  linear_combination (h.get₂ i j + h.get₂ j i) * hhalf

theorem get₂_symmetricPart_self (i : Fin d) : (symmetricPart h).get₂ i i = h.get₂ i i := by
  rw [symmetricPart, get₂_ofFn₂]
  linear_combination h.get₂ i i * hhalf

/-- The stress only depends on the symmetric part. -/
theorem stressTensor_symmetricPart : p.stressTensor (symmetricPart h) = p.stressTensor h := by
  refine ext_get₂ fun i j => ?_
  simp only [get₂_stressTensor, symmetricPart_add_transpose hhalf, get₂_symmetricPart_self hhalf]

/-! ## The energy -/

/-- The energy, as a quadratic form in the trace and the symmetric part. -/
theorem half_mul_work_self :
    half α * p.work h h = half α * p.lambda * (∑ k, h.get₂ k k) ^ 2 +
      p.mu * ∑ i, ∑ j, (symmetricPart h).get₂ i j * (symmetricPart h).get₂ i j := by
  have hsquare : ∀ i j, (symmetricPart h).get₂ i j * (symmetricPart h).get₂ i j =
      half α ^ 2 * (h.get₂ i j + h.get₂ j i) ^ 2 := by
    intro i j
    rw [symmetricPart, get₂_ofFn₂]
    ring
  simp only [hsquare, ← Finset.mul_sum]
  -- the closed form is known of twice the work; a factor two cancels against one half
  have htwice := two_mul_work_self p h
  linear_combination half α ^ 2 * htwice +
    (half α * p.lambda * (∑ k, h.get₂ k k) ^ 2 - half α * p.work h h) * hhalf

theorem work_symmetricPart :
    p.work (symmetricPart h) (symmetricPart h) = p.work h h := by
  have htwice : 2 * p.work (symmetricPart h) (symmetricPart h) = 2 * p.work h h := by
    simp only [two_mul_work_self, symmetricPart_add_transpose hhalf, get₂_symmetricPart_self hhalf]
  linear_combination half α * htwice +
    (p.work h h - p.work (symmetricPart h) (symmetricPart h)) * hhalf

end Half

theorem energyDensity_eq (p : LameParameters α) (h : Tensor α d 2) (hd : d ^ 4 < Word.limit) :
    p.energyDensity h = .ok (half α * p.work h h) := by
  rw [LameParameters.energyDensity, stress_eq p h hd, Checked.ok_bind,
    contractFull_eq _ _ (MultiIndex.pow_lt_limit hd (by decide)), Checked.ok_bind]
  rfl

/-- The stress of a tensor `h`, symmetric or not, is `lambda tr(h) I + mu (h + hᵀ)`, which is symmetric.
If one half is a half of one, the strain `e` of `h` has the same stress and the same energy as `h`, and
the energy is `lambda / 2 tr(h)²` plus `mu` times the full contraction of `e` with itself. -/
theorem stress_law (p : LameParameters α) (hd : d ^ 4 < Word.limit) (h : Tensor α d 2) :
    ∃ t s, trace h = .ok t ∧ p.stress h = .ok s ∧
      s.toMatrix = (p.lambda * t) • (identity α d).toMatrix +
        p.mu • (h.toMatrix + (transpose h).toMatrix) ∧
      transpose s = s ∧
      (2 * half α = 1 → ∃ e n w, strain h = .ok e ∧ p.stress e = .ok s ∧
        Expr.contractFull (.tensor e) (.tensor e) = .ok n ∧
        p.energyDensity h = .ok w ∧ p.energyDensity e = .ok w ∧
        w = half α * p.lambda * t ^ 2 + p.mu * n) := by
  have hd₂ : d ^ 2 < Word.limit := MultiIndex.pow_lt_limit hd (by decide)
  refine ⟨_, _, trace_eq h, stress_eq p h hd, toMatrix_stressTensor p h, transpose_stressTensor p h,
    fun hhalf => ⟨_, _, _, strain_eq h hd₂, ?_, contractFull_eq _ _ hd₂, energyDensity_eq p h hd, ?_,
      half_mul_work_self hhalf p h⟩⟩
  · rw [stress_eq p _ hd, stressTensor_symmetricPart hhalf]
  · rw [energyDensity_eq p _ hd, work_symmetricPart hhalf]

/-- A tensor over the rational numbers that is not symmetric. -/
theorem stress_law_rational :
    2 ^ 4 < Word.limit ∧ 2 * half ℚ = 1 ∧ ∃ (p : LameParameters ℚ) (h e s : Tensor ℚ 2 2),
      p.mu = 2 ∧ p.lambda = 3 ∧ h.toList = [1, 2, 5, 3] ∧
      trace h = .ok 4 ∧ p.stress h = .ok s ∧ transpose s = s ∧ s.toList = [16, 14, 14, 24] ∧
      strain h = .ok e ∧ e.toList = [1, 7 / 2, 7 / 2, 3] ∧ p.stress e = .ok s ∧
      p.energyDensity h = .ok 93 ∧ p.energyDensity e = .ok 93 := by
  let p : LameParameters ℚ := ⟨2, 3⟩
  let h : Tensor ℚ 2 2 := ⟨#v[1, 2, 5, 3]⟩
  have hd : 2 ^ 4 < Word.limit := by decide
  have hhalf : 2 * half ℚ = 1 := by decide +kernel
  obtain ⟨t, s, ht, hs, -, hsymm, hhalves⟩ := stress_law p hd h
  obtain ⟨e, n, w, he, hse, -, hw, hwe, -⟩ := hhalves hhalf
  have htrace : trace h = .ok 4 := by decide +kernel
  have hstress : (p.stress h).map toList = .ok [16, 14, 14, 24] := by decide +kernel
  have hstrain : (strain h).map toList = .ok [1, 7 / 2, 7 / 2, 3] := by decide +kernel
  have henergy : p.energyDensity h = .ok 93 := by decide +kernel
  rw [hs] at hstress
  rw [he] at hstrain
  rw [hw] at henergy
  obtain rfl := Except.ok.inj henergy
  exact ⟨hd, hhalf, p, h, e, s, rfl, rfl, rfl, htrace, hs, hsymm, Except.ok.inj hstress, he,
    Except.ok.inj hstrain, hse, hw, hwe⟩

end TensorMechanics.Elasticity
