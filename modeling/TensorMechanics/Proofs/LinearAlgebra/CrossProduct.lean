import Mathlib
import TensorMechanics.Proofs.LinearAlgebra.Product

/-!
# Proofs: cross product, determinant and inverse

Three formulas are written out by components: the cross product, the determinant along the first row, and the
cofactors by cyclic shifts. The cross product is the one of vectors with three components, so its laws are
known; full contraction is their dot product. The determinant of three rows is their triple product, and
column `j` of the transposed cofactors is the cross product of the two rows that follow row `j` in cyclic
order. So the inverse has the cross products of its rows in its columns.
-/

namespace TensorMechanics.LinearAlgebra

open Tensor Matrix

variable {α : Type} {d : Nat}

/-! ## Vectors -/

section Exact

attribute [local instance] Scalar.exact

/-- The full contraction of two vectors is their dot product. -/
theorem contractFull_vectors [Semiring α] [Sub α] (a b : Tensor α d 1) (hd : d ^ 1 < Word.limit) :
    Expr.contractFull (.tensor a) (.tensor b) = .ok (a.get₁ ⬝ᵥ b.get₁) := by
  rw [Expr.contractFull_eq_sum (e := .tensor a) (f := .tensor b) hd hd hd, sum_components₁]
  simp only [Expr.formula, entryAt_ofComponents₁, id]
  rfl

theorem cross_eq [CommRing α] (a b : Tensor α 3 1) : cross a b = .ok (.ofFn₁ (a.get₁ ⨯₃ b.get₁)) := by
  rw [cross_apply]
  rfl

end Exact

/-- The matrix with the given rows. -/
def ofRows (a b c : Tensor α 3 1) : Tensor α 3 2 := .ofFn₂ ![a.get₁, b.get₁, c.get₁]

theorem get₂_ofRows (a b c : Tensor α 3 1) : (ofRows a b c).get₂ = ![a.get₁, b.get₁, c.get₁] :=
  funext fun i => funext (get₂_ofFn₂ _ i)

section Ring

variable [ExactRing α]

theorem dot_vectors (a b : Tensor α 3 1) :
    Expr.contractFull (.tensor a) (.tensor b) = .ok (a.get₁ ⬝ᵥ b.get₁) :=
  contractFull_vectors a b (by decide)

/-- A cross product with the vector of its components. -/
theorem exists_cross (a b : Tensor α 3 1) :
    ∃ c : Tensor α 3 1, cross a b = .ok c ∧ c.get₁ = a.get₁ ⨯₃ b.get₁ :=
  ⟨_, cross_eq a b, funext (get₁_ofFn₁ _)⟩

/-! ## Three rows -/

theorem determinant_ofRows (a b c : Tensor α 3 1) :
    determinant (ofRows a b c) = a.get₁ ⬝ᵥ (b.get₁ ⨯₃ c.get₁) := by
  rw [determinant_eq_det (by decide), triple_product_eq_det, toMatrix, get₂_ofRows]
  rfl

/-- A column of the transposed cofactors is the cross product of the rows behind the row of its number, in
cyclic order. -/
theorem get₂_adjugate₃ (m : Tensor α 3 2) (i j : Fin 3) :
    (adjugate₃ m).get₂ i j = (m.get₂ (j + 1) ⨯₃ m.get₂ (j + 2)) i := by
  rw [adjugate₃, get₂_ofFn₂, cross_apply]
  fin_cases i <;> rfl

end Ring

/-- The inverse of a matrix of dimension three has the cross products of its rows in its columns. -/
theorem exists_inverse?_columns [ExactField α] {m : Tensor α 3 2} (hdet : determinant m ≠ 0) :
    ∃ b, inverse? m = some b ∧
      ∀ i j, b.get₂ i j = (m.get₂ (j + 1) ⨯₃ m.get₂ (j + 2)) i / determinant m := by
  refine ⟨_, cofactorInverse?_eq_some.mpr ⟨hdet, rfl⟩, fun i j => ?_⟩
  rw [get₂_map, get₂_adjugate₃, mul_one_div]

/-- Over a commutative ring, the full contraction of a vector with the cross product of two others is the
determinant of the three as rows. A cross product is orthogonal to both of its factors, and its full
contraction with itself is the product of those of its factors less the square of their contraction with each
other. Over a field, if the determinant is not zero, the columns of the inverse are the cross products of the
rows in cyclic order, divided by the determinant. -/
theorem cross_product_laws :
    (∀ {α : Type} [ExactRing α] (a b c : Tensor α 3 1),
      ∃ (ab bc : Tensor α 3 1) (aa bb x : α), cross a b = .ok ab ∧ cross b c = .ok bc ∧
        Expr.contractFull (.tensor a) (.tensor bc) = .ok (determinant (ofRows a b c)) ∧
        Expr.contractFull (.tensor a) (.tensor ab) = .ok 0 ∧
        Expr.contractFull (.tensor b) (.tensor ab) = .ok 0 ∧
        Expr.contractFull (.tensor a) (.tensor a) = .ok aa ∧
        Expr.contractFull (.tensor b) (.tensor b) = .ok bb ∧
        Expr.contractFull (.tensor a) (.tensor b) = .ok x ∧
        Expr.contractFull (.tensor ab) (.tensor ab) = .ok (aa * bb - x ^ 2)) ∧
    ∀ {α : Type} [ExactField α] (a b c : Tensor α 3 1), determinant (ofRows a b c) ≠ 0 →
      ∃ (inverse : Tensor α 3 2) (bc ca ab : Tensor α 3 1), inverse? (ofRows a b c) = some inverse ∧
        cross b c = .ok bc ∧ cross c a = .ok ca ∧ cross a b = .ok ab ∧
        ∀ i, inverse.get₂ i 0 = bc.get₁ i / determinant (ofRows a b c) ∧
          inverse.get₂ i 1 = ca.get₁ i / determinant (ofRows a b c) ∧
          inverse.get₂ i 2 = ab.get₁ i / determinant (ofRows a b c) := by
  constructor
  · intro α _ a b c
    obtain ⟨ab, hab, habComponents⟩ := exists_cross a b
    obtain ⟨bc, hbc, hbcComponents⟩ := exists_cross b c
    refine ⟨ab, bc, _, _, _, hab, hbc, ?_, ?_, ?_, dot_vectors a a, dot_vectors b b, dot_vectors a b, ?_⟩
    · rw [dot_vectors, hbcComponents, determinant_ofRows]
    · rw [dot_vectors, habComponents, dot_self_cross]
    · rw [dot_vectors, habComponents, dot_cross_self]
    · rw [dot_vectors, habComponents, cross_dot_cross, dotProduct_comm b.get₁ a.get₁, sq]
  · intro α _ a b c hdet
    obtain ⟨inverse, hinverse, hcolumns⟩ := exists_inverse?_columns hdet
    obtain ⟨bc, hbc, hbcComponents⟩ := exists_cross b c
    obtain ⟨ca, hca, hcaComponents⟩ := exists_cross c a
    obtain ⟨ab, hab, habComponents⟩ := exists_cross a b
    rw [get₂_ofRows] at hcolumns
    refine ⟨inverse, bc, ca, ab, hinverse, hbc, hca, hab, fun i => ⟨?_, ?_, ?_⟩⟩
    · rw [hbcComponents]
      exact hcolumns i 0
    · rw [hcaComponents]
      exact hcolumns i 1
    · rw [habComponents]
      exact hcolumns i 2

/-- Three rational rows with determinant two. -/
theorem cross_product_laws_rational :
    ∃ a b c ab bc ca : Tensor ℚ 3 1, ∃ inverse : Tensor ℚ 3 2,
      a.toList = [1, 2, 3] ∧ b.toList = [0, 1, 4] ∧ c.toList = [5, 6, 1] ∧
      bc.toList = [-23, 20, -5] ∧ ca.toList = [16, -14, 4] ∧ ab.toList = [5, -4, 1] ∧
      (ofRows a b c).toList = [1, 2, 3, 0, 1, 4, 5, 6, 1] ∧ determinant (ofRows a b c) = 2 ∧
      determinant (ofRows a b c) ≠ 0 ∧
      Expr.contractFull (.tensor a) (.tensor bc) = .ok (determinant (ofRows a b c)) ∧
      Expr.contractFull (.tensor a) (.tensor ab) = .ok 0 ∧
      inverse? (ofRows a b c) = some inverse ∧
      ∀ i, inverse.get₂ i 0 = bc.get₁ i / determinant (ofRows a b c) ∧
        inverse.get₂ i 1 = ca.get₁ i / determinant (ofRows a b c) ∧
        inverse.get₂ i 2 = ab.get₁ i / determinant (ofRows a b c) := by
  let a : Tensor ℚ 3 1 := ⟨#v[1, 2, 3]⟩
  let b : Tensor ℚ 3 1 := ⟨#v[0, 1, 4]⟩
  let c : Tensor ℚ 3 1 := ⟨#v[5, 6, 1]⟩
  have hdet : determinant (ofRows a b c) = 2 := by decide +kernel
  have hne : determinant (ofRows a b c) ≠ 0 := by
    rw [hdet]
    decide
  obtain ⟨hring, hfield⟩ := cross_product_laws
  obtain ⟨ab, bc, -, -, -, hab, hbc, htriple, horthogonal, -⟩ := hring a b c
  obtain ⟨inverse, bc', ca, ab', hinverse, hbc', hca, hab', hcolumns⟩ := hfield a b c hne
  obtain rfl := Except.ok.inj (hab.symm.trans hab')
  obtain rfl := Except.ok.inj (hbc.symm.trans hbc')
  have hbcList : toList <$> cross b c = .ok [-23, 20, -5] := by decide +kernel
  have hcaList : toList <$> cross c a = .ok [16, -14, 4] := by decide +kernel
  have habList : toList <$> cross a b = .ok [5, -4, 1] := by decide +kernel
  rw [hbc] at hbcList
  rw [hca] at hcaList
  rw [hab] at habList
  exact ⟨a, b, c, ab, bc, ca, inverse, rfl, rfl, rfl, Except.ok.inj hbcList, Except.ok.inj hcaList,
    Except.ok.inj habList, rfl, hdet, hne, htriple, horthogonal, hinverse, hcolumns⟩

end TensorMechanics.LinearAlgebra
