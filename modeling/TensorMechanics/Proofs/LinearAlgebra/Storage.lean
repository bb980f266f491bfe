import Mathlib
import TensorMechanics.Proofs.Expr.Matricization
import TensorMechanics.Proofs.Product.Sequential
import TensorMechanics.Proofs.Tensor.Components
import TensorMechanics.Proofs.Tensor.Views
import TensorMechanics.Scalar.Bounded

/-!
# Proofs: storage by rows and by columns

A tensor of rank two lies in storage by rows, a matrix lies there by columns. Converting one into the other
moves the entry at position `i * d + j` to position `j * d + i`, and converting back undoes it. A transpose
that is missed or made twice survives both the way there and back and every symmetric matrix; it does not
survive a product, so the conversions are also compared with the two products. Contracting two tensors over
one axis and multiplying their matrices in blocks answer alike: with depth zero every entry takes the same
operations, so no law of the scalars is needed.
-/

namespace TensorMechanics

variable {α : Type} {d m n : Nat}

namespace ColumnMatrix

/-- An entry of a matrix stands behind all entries of the columns before it. -/
theorem getElem?_toList (a : ColumnMatrix α m n) (i : Fin m) (j : Fin n) :
    a.toList[(j * m + i : Nat)]? = some (a.get i j) := by
  have hp : (Grid.position j i).val < a.toList.length :=
    (Grid.position j i).isLt.trans_eq Vector.length_toList.symm
  exact (List.getElem?_eq_getElem hp).trans (by simp [toList, get])

/-- Matrices of the same size are equal if all entries are. -/
theorem Sized.ext_get {a b : Sized α} (hrows : a.rows = b.rows) (hcolumns : a.columns = b.columns)
    (h : ∀ i j, a.matrix.get i j = b.matrix.get (i.cast hrows) (j.cast hcolumns)) : a = b := by
  obtain ⟨rows, columns, a⟩ := a
  obtain ⟨rows', columns', b⟩ := b
  dsimp only at hrows hcolumns h
  subst hrows hcolumns
  exact congrArg _ (ColumnMatrix.ext_get h)

end ColumnMatrix

/-- An entry of a tensor of rank two stands behind all entries of the rows before it. -/
theorem Tensor.getElem?_toList_row (t : Tensor α d 2) (i j : Fin d) :
    t.toList[(i * d + j : Nat)]? = some (t.get₂ i j) :=
  t.getElem?_toList ((Grid.mul_add_lt i.isLt j.isLt).trans_eq (Tensor.sq_eq d).symm)

namespace LinearAlgebra

open Tensor ColumnMatrix Product

/-! ## Conversions -/

theorem get_toColumnMatrix (t : Tensor α d 2) (i j : Fin d) : (toColumnMatrix t).get i j = t.get₂ i j :=
  get_ofFn _ i j

theorem ofColumnMatrix_toColumnMatrix (t : Tensor α d 2) : ofColumnMatrix (toColumnMatrix t) = t :=
  ext_get₂ fun i j => by rw [ofColumnMatrix, get₂_ofFn₂, get_toColumnMatrix]

theorem toColumnMatrix_ofColumnMatrix (a : ColumnMatrix α d d) : toColumnMatrix (ofColumnMatrix a) = a :=
  ColumnMatrix.ext_get fun i j => by rw [get_toColumnMatrix, ofColumnMatrix, get₂_ofFn₂]

theorem ofColumn_toColumn (v : Tensor α d 1) : ofColumn (toColumn v) = v :=
  ext_get₁ fun i => by rw [ofColumn, get₁_ofFn₁, toColumn, get_ofFn]

theorem toColumn_ofColumn (a : ColumnMatrix α d 1) : toColumn (ofColumn a) = a :=
  ColumnMatrix.ext_get fun i j => by rw [toColumn, get_ofFn, ofColumn, get₁_ofFn₁, Subsingleton.elim j 0]

/-- A vector is stored alike by rows and by columns. -/
theorem toList_toColumn (v : Tensor α d 1) : (toColumn v).toList = v.toList := by
  refine List.ext_getElem ?_ fun p _ hp => ?_
  · simp [ColumnMatrix.toList]
  · have hp : p < d := by simpa using hp
    simp [ColumnMatrix.toList, toColumn, ColumnMatrix.ofFn, Tensor.toList, get₁, Grid.columnOf,
      Nat.mod_eq_of_lt hp]

/-! ## Products -/

/-- A tensor of rank two that is read as a matrix by rows is the converted one. -/
theorem sized_matricize (h : 1 + 1 = 2) (t : Tensor α d 2) :
    (⟨d ^ 1, d ^ 1, t.matricize h⟩ : Sized α) = ⟨d, d, toColumnMatrix t⟩ := by
  refine Sized.ext_get (pow_one d) (pow_one d) fun i j => ?_
  rw [get_matricize, get_toColumnMatrix, get₂]
  congr 1
  simp [Grid.position]

section Scalar

variable [Scalar α] (a b : Tensor α d 2)

theorem eval_contraction_eq_ok_iff (hd : d ^ 2 < Word.limit) {c : Tensor α d 2} :
    (Expr.contraction 1 .matrices (.tensor a) (.tensor b)).eval = .ok c ↔
      direct ⟨d, d, toColumnMatrix a⟩ ⟨d, d, toColumnMatrix b⟩ = .ok ⟨d, d, toColumnMatrix c⟩ := by
  rw [Contraction.eval_eq_ok_iff_direct .matrices a b hd hd hd, ← sized_matricize rfl a,
    ← sized_matricize rfl b, ← sized_matricize rfl c]

theorem eval_contraction_faults_iff (hd : d ^ 2 < Word.limit) :
    (∃ fault, (Expr.contraction 1 .matrices (.tensor a) (.tensor b)).eval = .error fault) ↔
      ∃ fault, direct ⟨d, d, toColumnMatrix a⟩ ⟨d, d, toColumnMatrix b⟩ = .error fault := by
  rw [Contraction.eval_faults_iff_direct .matrices a b hd hd hd, ← sized_matricize rfl a,
    ← sized_matricize rfl b]

/-- The product of two converted tensors is a converted tensor. -/
theorem exists_of_direct_eq_ok {product : Sized α}
    (h : direct ⟨d, d, toColumnMatrix a⟩ ⟨d, d, toColumnMatrix b⟩ = .ok product) :
    ∃ c : Tensor α d 2, product = ⟨d, d, toColumnMatrix c⟩ := by
  rw [direct_of_agree] at h
  cases haccumulate : accumulate (toColumnMatrix a) (toColumnMatrix b) (.replicate d d Scalar.zero) with
  | error fault =>
    rw [haccumulate] at h
    cases h
  | ok sum =>
    rw [haccumulate] at h
    obtain rfl := Except.ok.inj h
    exact ⟨ofColumnMatrix sum, by rw [toColumnMatrix_ofColumnMatrix]⟩

/-- Converting a contraction of two tensors and multiplying the converted tensors answer alike. -/
theorem direct_eq_ok_iff_exists (hd : d ^ 2 < Word.limit) {product : Sized α} :
    direct ⟨d, d, toColumnMatrix a⟩ ⟨d, d, toColumnMatrix b⟩ = .ok product ↔
      ∃ c, (Expr.contraction 1 .matrices (.tensor a) (.tensor b)).eval = .ok c ∧
        product = ⟨d, d, toColumnMatrix c⟩ := by
  constructor
  · intro h
    obtain ⟨c, rfl⟩ := exists_of_direct_eq_ok a b h
    exact ⟨c, (eval_contraction_eq_ok_iff a b hd).mpr h, rfl⟩
  · rintro ⟨c, hc, rfl⟩
    exact (eval_contraction_eq_ok_iff a b hd).mp hc

end Scalar

/-- Converting a matrix from storage by rows to storage by columns moves the entry at position `i * d + j` to
position `j * d + i`, and a vector keeps its positions. The conversions of matrices and those of vectors undo
each other in both orders. Contracting two matrices over one axis and converting the result has the outcome
of converting both and multiplying them in blocks with depth zero, for every leaf size: the same matrix, or a
fault on both sides. The tensors exist, so an index word counts their entries. -/
theorem conversions_lossless_multiplicative [Scalar α] :
    (∀ (t : Tensor α d 2) (i j : Fin d), ∃ x, t.toList[(i * d + j : Nat)]? = some x ∧
      (toColumnMatrix t).toList[(j * d + i : Nat)]? = some x) ∧
    (∀ t : Tensor α d 2, ofColumnMatrix (toColumnMatrix t) = t) ∧
    (∀ a : ColumnMatrix α d d, toColumnMatrix (ofColumnMatrix a) = a) ∧
    (∀ v : Tensor α d 1, (toColumn v).toList = v.toList ∧ ofColumn (toColumn v) = v) ∧
    (∀ a : ColumnMatrix α d 1, toColumn (ofColumn a) = a) ∧
    (d ^ 2 < Word.limit → ∀ (a b : Tensor α d 2) (leafSize : Nat) (schedule : Schedule),
      let contracted := (Expr.contraction 1 .matrices (.tensor a) (.tensor b)).eval
      let multiplied :=
        (blocked ⟨leafSize, 0⟩ schedule ⟨d, d, toColumnMatrix a⟩ ⟨d, d, toColumnMatrix b⟩).result
      (∀ product : Sized α, multiplied = .ok product ↔
        ∃ c, contracted = .ok c ∧ product = ⟨d, d, toColumnMatrix c⟩) ∧
      ((∃ fault, multiplied = .error fault) ↔ ∃ fault, contracted = .error fault)) := by
  refine ⟨fun t i j => ?_, ofColumnMatrix_toColumnMatrix, toColumnMatrix_ofColumnMatrix,
    fun v => ⟨toList_toColumn v, ofColumn_toColumn v⟩, toColumn_ofColumn, fun hd a b leafSize schedule => ?_⟩
  · exact ⟨t.get₂ i j, t.getElem?_toList_row i j,
      get_toColumnMatrix t i j ▸ (toColumnMatrix t).getElem?_toList i j⟩
  · have hsame := blocked_sameAnswer_direct leafSize schedule ⟨d, d, toColumnMatrix a⟩ ⟨d, d, toColumnMatrix b⟩
    exact ⟨fun product => (hsame product).trans (direct_eq_ok_iff_exists a b hd),
      hsame.faults_iff.trans (eval_contraction_faults_iff a b hd).symm⟩

/-- A byte as a bounded integer. -/
def byte (n : Fin 256) : Bounded .unsigned8 :=
  ⟨n, Int.natCast_nonneg n, Int.ofNat_le.mpr (Nat.le_of_lt_succ n.isLt)⟩

/-- Two matrices of bytes that are not symmetric, and one whose square does not fit. -/
theorem conversions_lossless_multiplicative_bytes :
    2 ^ 2 < Word.limit ∧ ∃ a b c large : Tensor (Bounded .unsigned8) 2 2,
      a.toList.map Bounded.val = [1, 2, 3, 4] ∧ b.toList.map Bounded.val = [5, 6, 7, 8] ∧
      c.toList.map Bounded.val = [19, 22, 43, 50] ∧ large.toList.map Bounded.val = [200, 100, 1, 0] ∧
      (toColumnMatrix a).toList[(1 * 2 + 0 : Nat)]? = a.toList[(0 * 2 + 1 : Nat)]? ∧
      (toColumnMatrix c).toList.map Bounded.val = [19, 43, 22, 50] ∧
      ofColumnMatrix (toColumnMatrix a) = a ∧
      (Expr.contraction 1 .matrices (.tensor a) (.tensor b)).eval = .ok c ∧
      (blocked ⟨1, 0⟩ .inOrder ⟨2, 2, toColumnMatrix a⟩ ⟨2, 2, toColumnMatrix b⟩).result =
        .ok ⟨2, 2, toColumnMatrix c⟩ ∧
      ∃ fault, (blocked ⟨1, 0⟩ .inOrder ⟨2, 2, toColumnMatrix large⟩ ⟨2, 2, toColumnMatrix large⟩).result =
        .error fault := by
  let a : Tensor (Bounded .unsigned8) 2 2 := ⟨#v[byte 1, byte 2, byte 3, byte 4]⟩
  let b : Tensor (Bounded .unsigned8) 2 2 := ⟨#v[byte 5, byte 6, byte 7, byte 8]⟩
  let c : Tensor (Bounded .unsigned8) 2 2 := ⟨#v[byte 19, byte 22, byte 43, byte 50]⟩
  let large : Tensor (Bounded .unsigned8) 2 2 := ⟨#v[byte 200, byte 100, byte 1, byte 0]⟩
  have hd : 2 ^ 2 < Word.limit := by decide
  obtain ⟨hlayout, hback, -, -, -, hproducts⟩ := conversions_lossless_multiplicative (α := Bounded .unsigned8)
    (d := 2)
  obtain ⟨x, hrow, hcolumn⟩ := hlayout a 0 1
  have hcontracted : (Expr.contraction 1 .matrices (.tensor a) (.tensor b)).eval = .ok c := by rfl
  have hlarge : (Expr.contraction 1 .matrices (.tensor large) (.tensor large)).eval =
    .error (.overflow .multiplication) := by rfl
  exact ⟨hd, a, b, c, large, rfl, rfl, rfl, rfl, hcolumn.trans hrow.symm, rfl, hback a, hcontracted,
    ((hproducts hd a b 1 .inOrder).1 _).mpr ⟨c, hcontracted, rfl⟩,
    (hproducts hd large large 1 .inOrder).2.mpr ⟨_, hlarge⟩⟩

end LinearAlgebra

end TensorMechanics
