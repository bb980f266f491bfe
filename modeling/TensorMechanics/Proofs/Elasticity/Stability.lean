import Mathlib
import TensorMechanics.Proofs.Elasticity.Strain

/-!
# Proofs: stable materials

A material is stable if no strain has negative energy. In dimension two and above this is so exactly if
neither the shear modulus nor `2 mu + d lambda` is negative; `lambda` itself may be negative. Two strains
show that both conditions are needed. The energy of the identity, an extension in all directions, is
`d / 2` times `2 mu + d lambda`, and the energy of a simple shear is half of `mu`.
-/

namespace TensorMechanics.Elasticity

open Tensor TensorMechanics.LinearAlgebra RealScalar

variable {α : Type} {d : Nat}

/-! ## Test strains -/

section Ring

variable [ExactRing α] (p : LameParameters α)

theorem work_identity :
    p.work (identity α d) (identity α d) = d * (2 * p.mu + d * p.lambda) := by
  have htrace : ∑ k : Fin d, (identity α d).get₂ k k = d := by
    simp [get₂_identity, delta]
  calc p.work (identity α d) (identity α d)
      = ∑ i, (p.stressTensor (identity α d)).get₂ i i := by
        simp only [LameParameters.work, get₂_identity, sum_mul_delta]
    _ = ∑ _i : Fin d, (2 * p.mu + d * p.lambda) := by
        refine Finset.sum_congr rfl fun i _ => ?_
        rw [get₂_stressTensor, htrace, get₂_identity, delta, if_pos rfl]
        ring
    _ = d * (2 * p.mu + d * p.lambda) := by
        rw [Finset.sum_const, Finset.card_univ, Fintype.card_fin, nsmul_eq_mul]

/-- A displacement in direction `a` that grows in direction `b`. -/
def simpleShear (α : Type) [ExactRing α] (a b : Fin d) : Tensor α d 2 :=
  .ofFn₂ fun i j => delta α a i * delta α b j

theorem get₂_simpleShear (a b i j : Fin d) :
    (simpleShear α a b).get₂ i j = delta α a i * delta α b j :=
  get₂_ofFn₂ _ i j

theorem work_simpleShear {a b : Fin d} (hab : a ≠ b) :
    p.work (simpleShear α a b) (simpleShear α a b) = p.mu := by
  have hentry : p.work (simpleShear α a b) (simpleShear α a b) =
      (p.stressTensor (simpleShear α a b)).get₂ a b := by
    simp only [LameParameters.work, get₂_simpleShear, ← mul_assoc, sum_mul_delta]
  rw [hentry, get₂_stressTensor]
  simp [get₂_simpleShear, delta, hab, hab.symm]

end Ring

/-! ## Stability -/

/-- In dimension two and above, no strain has negative energy exactly if neither `mu` nor
`2 mu + d lambda` is negative. -/
theorem energyDensity_nonneg_iff [ExactOrderedField α] (p : LameParameters α) (hd : 2 ≤ d)
    (hlimit : d ^ 4 < Word.limit) :
    (∀ e : Tensor α d 2, ∃ w, p.energyDensity e = .ok w ∧ 0 ≤ w) ↔
      0 ≤ p.mu ∧ 0 ≤ 2 * p.mu + d * p.lambda := by
  have hhalf : (0 : α) < half α := by
    rw [half_eq]
    exact half_pos one_pos
  have henergy : ∀ e : Tensor α d 2,
      (∃ w, p.energyDensity e = .ok w ∧ 0 ≤ w) ↔ 0 ≤ p.work e e := by
    intro e
    rw [energyDensity_eq p e hlimit]
    simp [mul_nonneg_iff_of_pos_left hhalf]
  simp only [henergy]
  constructor
  · intro h
    have hshear := h (simpleShear α ⟨0, by omega⟩ ⟨1, by omega⟩)
    have hdilation := h (identity α d)
    rw [work_simpleShear p (by simp)] at hshear
    rw [work_identity p] at hdilation
    have hpos : (0 : α) < d := Nat.cast_pos.mpr (by omega)
    exact ⟨hshear, (mul_nonneg_iff_of_pos_left hpos).mp hdilation⟩
  · rintro ⟨hmu, hbulk⟩ e
    exact work_self_nonneg hmu hbulk e

/-- Two materials over the rational numbers with negative `lambda` and the same `mu`. The first one just
meets the condition, the second one has a strain of negative energy. -/
theorem energyDensity_nonneg_iff_negative_lambda :
    2 ≤ 3 ∧ 3 ^ 4 < Word.limit ∧
      (∀ e : Tensor ℚ 3 2, ∃ w, (⟨3, -2⟩ : LameParameters ℚ).energyDensity e = .ok w ∧ 0 ≤ w) ∧
      ¬ ∀ e : Tensor ℚ 3 2, ∃ w, (⟨3, -3⟩ : LameParameters ℚ).energyDensity e = .ok w ∧ 0 ≤ w := by
  have hd : 2 ≤ 3 := by decide
  have hlimit : 3 ^ 4 < Word.limit := by decide
  refine ⟨hd, hlimit, (energyDensity_nonneg_iff _ hd hlimit).mpr ⟨by decide, by decide +kernel⟩,
    fun h => ?_⟩
  have hbulk := ((energyDensity_nonneg_iff _ hd hlimit).mp h).2
  revert hbulk
  decide +kernel

end TensorMechanics.Elasticity
