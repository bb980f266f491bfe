import Mathlib
import TensorMechanics.Proofs.LinearAlgebra.Product
import TensorMechanics.Proofs.Tensor.Views

/-!
# Proofs: identity, transpose and trace under contraction

Contracting an axis with the identity leaves a sum with one term: the delta keeps the term in which the
contracted component is the free one of the identity, and there the other operand is read at the index of
the result. The free component of the identity is the first one of the result if the identity is on the
left, and the last one if it is on the right, so this holds for every rank and on both sides.

Contractions of two matrices over one axis are products of matrices. So transposing exchanges the factors,
and both orders of two factors have the same trace, which is the full contraction of one factor with the
transpose of the other.
-/

namespace TensorMechanics

variable {α : Type} {d r : Nat}

/-! ## Indices with an axis -/

namespace MultiIndex

theorem InBounds.exists_first {ix : MultiIndex r} (hix : ix.InBounds d) (hr : 1 ≤ r) :
    ∃ (i : Fin d) (is : List Nat), ix.components = ↑i :: is := by
  have hlen := ix.length_components
  cases hcomponents : ix.components with
  | nil =>
    rw [hcomponents, List.length_nil] at hlen
    omega
  | cons i is => exact ⟨⟨i, hix i (by simp [hcomponents])⟩, is, rfl⟩

theorem InBounds.exists_last {ix : MultiIndex r} (hix : ix.InBounds d) (hr : 1 ≤ r) :
    ∃ (is : List Nat) (j : Fin d), ix.components = is ++ [(j : Nat)] := by
  have hlen := ix.length_components
  rcases List.eq_nil_or_concat ix.components with hcomponents | ⟨is, j, hcomponents⟩
  · rw [hcomponents, List.length_nil] at hlen
    omega
  · rw [List.concat_eq_append] at hcomponents
    exact ⟨is, ⟨j, hix j (by simp [hcomponents])⟩, hcomponents⟩

end MultiIndex

namespace ContractionShape

/-- The ranks of a matrix times a tensor. -/
theorem matrixLeft (hr : 1 ≤ r) : ContractionShape 2 r 1 r := by
  constructor <;> omega

/-- The ranks of a tensor times a matrix. -/
theorem matrixRight (hr : 1 ≤ r) : ContractionShape r 2 1 r := by
  constructor <;> omega

end ContractionShape

namespace Expr

open Tensor TensorMechanics.LinearAlgebra

variable [CommRing α]

attribute [local instance] Scalar.exact

/-! ## Identity -/

theorem formula_identity (i k : Fin d) :
    (tensor (identity α d)).formula id (.ofComponents ![i, k]) = if i = k then 1 else 0 := by
  rw [formula, entryAt_ofComponents₂, identity, get₂_ofFn₂]
  rfl

/-- The delta keeps the term in which the contracted component is the first one of the index. -/
theorem formula_identity_contraction (h : ContractionShape 2 r 1 r) (e : Expr α d r) {ix : MultiIndex r}
    (hix : ix.InBounds d) :
    (contraction 1 h (tensor (identity α d)) e).formula id ix = e.formula id ix := by
  obtain ⟨i, is, hfirst⟩ := hix.exists_first h.le_right
  have hleft : ∀ k, h.leftIndex ix (.ofComponents ![k]) = .ofComponents ![i, k] := by
    intro k
    apply MultiIndex.ext
    simp [ContractionShape.leftIndex, MultiIndex.ofComponents, hfirst]
  have hright : h.rightIndex ix (.ofComponents ![i]) = ix := by
    apply MultiIndex.ext
    simp [ContractionShape.rightIndex, MultiIndex.ofComponents, hfirst]
  rw [formula, sum_components₁, Finset.sum_eq_single i]
  · rw [hleft, hright, formula_identity, if_pos rfl, one_mul]
  · intro k _ hk
    rw [hleft, formula_identity, if_neg hk.symm, zero_mul]
  · exact fun hi => absurd (Finset.mem_univ i) hi

/-- The delta keeps the term in which the contracted component is the last one of the index. -/
theorem formula_contraction_identity (h : ContractionShape r 2 1 r) (e : Expr α d r) {ix : MultiIndex r}
    (hix : ix.InBounds d) :
    (contraction 1 h e (tensor (identity α d))).formula id ix = e.formula id ix := by
  obtain ⟨is, j, hlast⟩ := hix.exists_last h.le_left
  have hfree : r - 1 = is.length := by
    rw [← ix.length_components, hlast, List.length_append, List.length_singleton,
      Nat.add_sub_cancel]
  have hleft : h.leftIndex ix (.ofComponents ![j]) = ix := by
    apply MultiIndex.ext
    simp [ContractionShape.leftIndex, MultiIndex.ofComponents, hlast, hfree]
  have hright : ∀ k, h.rightIndex ix (.ofComponents ![k]) = .ofComponents ![k, j] := by
    intro k
    apply MultiIndex.ext
    simp [ContractionShape.rightIndex, MultiIndex.ofComponents, hlast, hfree]
  rw [formula, sum_components₁, Finset.sum_eq_single j]
  · rw [hleft, hright, formula_identity, if_pos rfl, mul_one]
  · intro k _ hk
    rw [hright, formula_identity, if_neg hk, mul_zero]
  · exact fun hj => absurd (Finset.mem_univ j) hj

/-- An expression with the formula of a tensor makes this tensor. -/
theorem eval_eq_of_formula {e : Expr α d r} (he : e.Addressable) {t : Tensor α d r}
    (hlen : d ^ r < Word.limit)
    (h : ∀ ix : MultiIndex r, ix.InBounds d → e.formula id ix = (tensor t).formula id ix) :
    e.eval = .ok t := by
  refine eval_eq_ok.mpr ⟨hlen, fun p hp => ?_⟩
  have hix := MultiIndex.inBounds_ofOffset hp
  rw [evaluate_eq_formula he hix, h _ hix, ← evaluate_eq_formula (e := tensor t) hlen hix]
  exact t.read_ofOffset hlen hp

/-- Contracting an axis with the identity changes nothing, on either side and for every rank. Transposing a
contraction of two matrices over one axis exchanges the factors and transposes them. Both orders of the
factors have the same trace, the full contraction of the left factor with the transpose of the right one.
The tensors exist, so an index word counts their entries. -/
theorem contraction_matrix_laws (hd : d ^ 2 < Word.limit) :
    (∀ {r : Nat} (hr : 1 ≤ r) (t : Tensor α d r), d ^ r < Word.limit →
      (contraction 1 (.matrixLeft hr) (tensor (identity α d)) (tensor t)).eval = .ok t ∧
      (contraction 1 (.matrixRight hr) (tensor t) (tensor (identity α d))).eval = .ok t) ∧
    ∀ a b : Tensor α d 2, ∃ (ab ba : Tensor α d 2) (x : α),
      (contraction 1 .matrices (tensor a) (tensor b)).eval = .ok ab ∧
      (contraction 1 .matrices (tensor b) (tensor a)).eval = .ok ba ∧
      (contraction 1 .matrices (tensor (transpose b)) (tensor (transpose a))).eval =
        .ok (transpose ab) ∧
      trace ab = .ok x ∧ contractFull (tensor a) (tensor (transpose b)) = .ok x ∧ trace ba = .ok x := by
  constructor
  · intro r hr t hlen
    have hleft : (contraction 1 (.matrixLeft hr) (tensor (identity α d)) (tensor t)).Addressable :=
      ⟨hd, hlen⟩
    have hright : (contraction 1 (.matrixRight hr) (tensor t) (tensor (identity α d))).Addressable :=
      ⟨hlen, hd⟩
    exact ⟨eval_eq_of_formula hleft hlen fun ix hix => formula_identity_contraction _ _ hix,
      eval_eq_of_formula hright hlen fun ix hix => formula_contraction_identity _ _ hix⟩
  · intro a b
    refine ⟨_, _, (a.toMatrix * b.toMatrix).trace, eval_contraction_matrices a b hd,
      eval_contraction_matrices b a hd, ?_, ?_, ?_, ?_⟩
    · rw [eval_contraction_matrices _ _ hd, toMatrix_transpose, toMatrix_transpose,
        ← Matrix.transpose_mul, transpose_ofMatrix]
    · rw [trace_eq, toMatrix_ofMatrix]
    · rw [contractFull_eq _ _ hd]
      simp only [transpose, get₂_ofFn₂, Matrix.trace, Matrix.diag_apply, Matrix.mul_apply, toMatrix_apply]
    · rw [trace_eq, toMatrix_ofMatrix, Matrix.trace_mul_comm]

/-- The integer identity and a tensor of rank three, and two matrices that do not commute. -/
theorem contraction_matrix_laws_integer :
    2 ^ 2 < Word.limit ∧ 1 ≤ 3 ∧ 2 ^ 3 < Word.limit ∧
      ∃ (left : ContractionShape 2 3 1 3) (right : ContractionShape 3 2 1 3) (t : Tensor Int 2 3)
        (a b ab ba : Tensor Int 2 2),
        t.toList = [1, 2, 3, 4, 5, 6, 7, 8] ∧ a.toList = [1, 2, 3, 4] ∧ b.toList = [5, 6, 7, 8] ∧
        ab.toList = [19, 22, 43, 50] ∧ ba.toList = [23, 34, 31, 46] ∧
        (contraction 1 left (tensor (identity Int 2)) (tensor t)).eval = .ok t ∧
        (contraction 1 right (tensor t) (tensor (identity Int 2))).eval = .ok t ∧
        (contraction 1 .matrices (tensor a) (tensor b)).eval = .ok ab ∧
        (contraction 1 .matrices (tensor b) (tensor a)).eval = .ok ba ∧
        (contraction 1 .matrices (tensor (transpose b)) (tensor (transpose a))).eval =
          .ok (transpose ab) ∧
        trace ab = .ok 69 ∧ contractFull (tensor a) (tensor (transpose b)) = .ok 69 ∧
        trace ba = .ok 69 := by
  let t : Tensor Int 2 3 := ⟨#v[1, 2, 3, 4, 5, 6, 7, 8]⟩
  let a : Tensor Int 2 2 := ⟨#v[1, 2, 3, 4]⟩
  let b : Tensor Int 2 2 := ⟨#v[5, 6, 7, 8]⟩
  have hd : 2 ^ 2 < Word.limit := by decide
  have hr : 1 ≤ 3 := by decide
  have hlen : 2 ^ 3 < Word.limit := by decide
  obtain ⟨hidentity, hmatrices⟩ := contraction_matrix_laws (α := Int) hd
  obtain ⟨hleft, hright⟩ := hidentity hr t hlen
  obtain ⟨ab, ba, x, hab, hba, htranspose, htrace, hfull, htrace'⟩ := hmatrices a b
  obtain rfl := Except.ok.inj (hab.symm.trans (eval_contraction_matrices a b hd))
  obtain rfl := Except.ok.inj (hba.symm.trans (eval_contraction_matrices b a hd))
  obtain rfl : x = 69 := Except.ok.inj (htrace.symm.trans (by decide))
  exact ⟨hd, hr, hlen, .matrixLeft hr, .matrixRight hr, t, a, b, _, _, rfl, rfl, rfl, by decide, by decide,
    hleft, hright, hab, hba, htranspose, htrace, hfull, htrace'⟩

end Expr

end TensorMechanics
