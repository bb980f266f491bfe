import TensorMechanics.LinearAlgebra

/-!
# Isotropic linear elasticity

A material with Lamé parameters `mu` and `lambda` answers a strain with a stress through the tensor
`C_ijkl = lambda δ_ij δ_kl + mu (δ_ik δ_jl + δ_il δ_jk)`. The stress contracts this tensor with the
strain over two axes, and the energy is half the full contraction of stress and strain.

The strain need not be symmetric; `strain` makes the symmetric part of a displacement gradient.
-/

namespace TensorMechanics.Elasticity

open RealScalar

/-- The two moduli of an isotropic material. -/
structure LameParameters (α : Type) where
  /-- The shear modulus. -/
  mu : α
  /-- The first parameter. -/
  lambda : α

/-- The moduli of an isotropic material as engineers measure them. -/
structure YoungPoisson (α : Type) where
  /-- Young's modulus. -/
  young : α
  /-- Poisson's ratio. -/
  poisson : α

variable {α : Type} [RealScalar α] {d : Nat}

/-- The Lamé parameters of the same material. -/
def YoungPoisson.toLame (p : YoungPoisson α) : LameParameters α :=
  let mu := half α * p.young / (1 + p.poisson)
  let lambda := natural α 2 * mu * p.poisson / (1 - natural α 2 * p.poisson)
  ⟨mu, lambda⟩

/-- An entry of the elasticity tensor. -/
def LameParameters.modulus (p : LameParameters α) (i j k l : Fin d) : α :=
  p.lambda * delta α i j * delta α k l
    + p.mu * (delta α i k * delta α j l + delta α i l * delta α j k)

/-- The elasticity tensor. -/
def LameParameters.tensor (p : LameParameters α) (d : Nat) : Tensor α d 4 := .ofFn₄ p.modulus

/-- The symmetric part of a displacement gradient. -/
def strain (h : Tensor α d 2) : Checked (Tensor α d 2) :=
  (Expr.scaled (.sum (.tensor h) (.tensor (LinearAlgebra.transpose h))) (half α)).eval

/-- The ranks of the contraction of a material tensor and a strain. -/
theorem doubleShape : ContractionShape 4 2 2 2 := by constructor <;> decide

/-- The double contraction of a tensor of rank four with an expression of rank two. -/
def contractTwice (c : Tensor α d 4) (e : Expr α d 2) : Checked (Tensor α d 2) :=
  (Expr.contraction 2 doubleShape (.tensor c) e).eval

/-- The stress of a strain. -/
def LameParameters.stress (p : LameParameters α) (e : Tensor α d 2) : Checked (Tensor α d 2) :=
  contractTwice (p.tensor d) (.tensor e)

/-- The energy of a strain. -/
def LameParameters.energyDensity (p : LameParameters α) (e : Tensor α d 2) : Checked α := do
  let s ← p.stress e
  let full ← Expr.contractFull (.tensor s) (.tensor e)
  return half α * full

end TensorMechanics.Elasticity
