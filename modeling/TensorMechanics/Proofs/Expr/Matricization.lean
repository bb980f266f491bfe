import Mathlib
import TensorMechanics.Proofs.Expr.Evaluation
import TensorMechanics.Proofs.Product.Entries

/-!
# Proofs: contractions as products of matrices

The entries of a tensor of rank `p + q` in row-major order are those of a matrix with `d ^ p` rows
and `d ^ q` columns, read row by row. Read like this, contracting two tensors is multiplying two
matrices: the free axes of the operands address the rows and the columns of the product, and the
contracted axes, taken together, are the inner side. The sequence of operations of each entry is the
same, so no law of the scalars is needed.
-/

namespace TensorMechanics

variable {α : Type} {d r r₁ r₂ n p q : Nat}

/-! ## Tensors read as matrices -/

namespace Tensor

/-- The entries in row-major order as a matrix: entry `(i, j)` is at position `i * d ^ q + j`. -/
def matricize (h : p + q = r) (t : Tensor α d r) : ColumnMatrix α (d ^ p) (d ^ q) :=
  .ofFn fun i j => t.entries[(Grid.position i j).cast (rows_mul_columns h)]

theorem get_matricize (h : p + q = r) (t : Tensor α d r) (i : Fin (d ^ p)) (j : Fin (d ^ q)) :
    (t.matricize h).get i j = t.entries[(Grid.position i j).cast (rows_mul_columns h)] :=
  ColumnMatrix.get_ofFn _ i j

/-- Every matrix of these dimensions is a tensor read as a matrix. -/
theorem exists_matricize_eq (h : p + q = r) (a : ColumnMatrix α (d ^ p) (d ^ q)) :
    ∃ t : Tensor α d r, t.matricize h = a := by
  let entry := fun x : Fin (Nat.pow d r) =>
    let x := x.cast (rows_mul_columns h).symm
    a.get (Grid.rowOf x) (Grid.columnOf x)
  refine ⟨⟨Vector.ofFn entry⟩, ColumnMatrix.ext_get fun i j => ?_⟩
  simp [get_matricize, entry]

/-- Reading at a position is reading an entry of the matrix. -/
theorem read_row_column (h : p + q = r) (t : Tensor α d r) (hlen : d ^ r < Word.limit)
    (i : Fin (d ^ p)) (j : Fin (d ^ q)) :
    t.read (.ofOffset d r (i * d ^ q + j)) = .ok ((t.matricize h).get i j) := by
  have hpos : i * d ^ q + j < d ^ r := (Grid.mul_add_lt i.isLt j.isLt).trans_eq (rows_mul_columns h)
  rw [read_ofOffset t hlen hpos, get_matricize]
  rfl

end Tensor

/-- Materializing answers exactly if every entry of the matrix is the value at its position. -/
theorem Expr.eval_eq_ok_matricize [Scalar α] (h : p + q = r) {e : Expr α d r} {t : Tensor α d r} :
    e.eval = .ok t ↔ d ^ r < Word.limit ∧
      ∀ (i : Fin (d ^ p)) (j : Fin (d ^ q)),
        e.evaluate (.ofOffset d r (i * d ^ q + j)) = .ok ((t.matricize h).get i j) := by
  rw [eval_eq_ok]
  refine and_congr_right fun hlen => ⟨fun ht i j => ?_, fun ht x hx => ?_⟩
  · have hpos : i * d ^ q + j < d ^ r :=
      (Grid.mul_add_lt i.isLt j.isLt).trans_eq (Tensor.rows_mul_columns h)
    rw [ht _ hpos, Tensor.get_matricize]
    rfl
  · have hx' : x < d ^ p * d ^ q := hx.trans_eq (Tensor.rows_mul_columns h).symm
    have hsplit := Grid.position_rowOf_columnOf ⟨x, hx'⟩
    have hval : (Grid.rowOf ⟨x, hx'⟩ : Nat) * d ^ q + Grid.columnOf ⟨x, hx'⟩ = x :=
      congrArg Fin.val hsplit
    have hij := ht (Grid.rowOf ⟨x, hx'⟩) (Grid.columnOf ⟨x, hx'⟩)
    simp only [Tensor.get_matricize, hsplit, hval] at hij
    exact hij

/-- Materializing a tensor whose entries can be counted faults exactly if some value does. -/
theorem Expr.eval_faults_iff_matricize [Scalar α] (h : p + q = r) {e : Expr α d r}
    (hlen : d ^ r < Word.limit) :
    (∃ fault, e.eval = .error fault) ↔
      ∃ (i : Fin (d ^ p)) (j : Fin (d ^ q)) (fault : Fault),
        e.evaluate (.ofOffset d r (i * d ^ q + j)) = .error fault := by
  rw [Checked.faults_iff]
  constructor
  · intro hnone
    by_contra hall
    have hvalues : ∀ (i : Fin (d ^ p)) (j : Fin (d ^ q)),
        ∃ x, e.evaluate (.ofOffset d r (i * d ^ q + j)) = .ok x := by
      intro i j
      by_contra hij
      exact hall ⟨i, j, Checked.faults_iff.mpr (not_exists.mp hij)⟩
    choose x hx using hvalues
    obtain ⟨t, ht⟩ := Tensor.exists_matricize_eq h (.ofFn x)
    refine hnone t ((eval_eq_ok_matricize h).mpr ⟨hlen, fun i j => ?_⟩)
    rw [ht, ColumnMatrix.get_ofFn, hx i j]
  · rintro ⟨i, j, fault, hfault⟩ t ht
    have hij := ((eval_eq_ok_matricize h).mp ht).2 i j
    rw [hfault] at hij
    cases hij

namespace ContractionShape

/-! ## The axes of both operands and of the result -/

theorem left (h : ContractionShape r₁ r₂ n r) : r₁ - n + n = r₁ := by
  have := h.le_left
  omega

theorem right (h : ContractionShape r₁ r₂ n r) : n + (r₂ - n) = r₂ := by
  have := h.le_right
  omega

theorem result (h : ContractionShape r₁ r₂ n r) : r₁ - n + (r₂ - n) = r := by
  have := h.le_left
  have := h.le_right
  have := h.rank
  omega

variable {i j k : Nat}

/-- The left operand is read in row `i` at inner position `k`. -/
theorem leftIndex_ofOffset (h : ContractionShape r₁ r₂ n r) (hj : j < d ^ (r₂ - n))
    (hk : k < d ^ n) :
    h.leftIndex (.ofOffset d r (i * d ^ (r₂ - n) + j)) (.ofOffset d n k) =
      .ofOffset d r₁ (i * d ^ n + k) := by
  have hrow : (MultiIndex.ofOffset d (r₁ - n) i).components.length = r₁ - n :=
    MultiIndex.length_components _
  apply MultiIndex.ext
  rw [MultiIndex.components_ofOffset_add h.left i hk]
  show List.take _ _ ++ _ = _
  rw [MultiIndex.components_ofOffset_add h.result i hj, List.take_left' hrow]

/-- The right operand is read in inner position `k` at column `j`. -/
theorem rightIndex_ofOffset (h : ContractionShape r₁ r₂ n r) (hj : j < d ^ (r₂ - n)) :
    h.rightIndex (.ofOffset d r (i * d ^ (r₂ - n) + j)) (.ofOffset d n k) =
      .ofOffset d r₂ (k * d ^ (r₂ - n) + j) := by
  have hrow : (MultiIndex.ofOffset d (r₁ - n) i).components.length = r₁ - n :=
    MultiIndex.length_components _
  apply MultiIndex.ext
  rw [MultiIndex.components_ofOffset_add h.right k hj]
  show _ ++ List.drop _ _ = _
  rw [MultiIndex.components_ofOffset_add h.result i hj, List.drop_left' hrow]

end ContractionShape

namespace Contraction

variable [Scalar α]

/-- The operations of one entry of the contraction of two tensors: from zero on, the products of row
`i` of the left and column `j` of the right operand are added in order. -/
def entry (h : ContractionShape r₁ r₂ n r) (a : Tensor α d r₁) (b : Tensor α d r₂)
    (i : Fin (d ^ (r₁ - n))) (j : Fin (d ^ (r₂ - n))) : Checked α :=
  (List.finRange (d ^ n)).foldlM (fun acc k => do
    let x := (a.matricize h.left).get i k
    let y := (b.matricize h.right).get k j
    Scalar.add acc (← Scalar.mul x y)) Scalar.zero

variable (h : ContractionShape r₁ r₂ n r) (a : Tensor α d r₁) (b : Tensor α d r₂)

/-- An entry of the product of the matrices takes the same operations. -/
theorem addProducts_eq_entry (i : Fin (d ^ (r₁ - n))) (j : Fin (d ^ (r₂ - n))) :
    Scalar.addProducts Scalar.zero ((a.matricize h.left).terms (b.matricize h.right) i j) =
      entry h a b i j := by
  rw [ColumnMatrix.terms, Scalar.addProducts, List.foldlM_map, entry]

/-- The value of the contraction at a position is the entry in its row and column. -/
theorem evaluate_tensors (ha : d ^ r₁ < Word.limit) (hb : d ^ r₂ < Word.limit)
    (i : Fin (d ^ (r₁ - n))) (j : Fin (d ^ (r₂ - n))) :
    (Expr.contraction n h (.tensor a) (.tensor b)).evaluate
      (.ofOffset d r (i * d ^ (r₂ - n) + j)) = entry h a b i j := by
  have hdim : 0 < n → d < Word.limit := fun hn =>
    MultiIndex.dim_lt_limit ha (hn.trans_le h.le_left)
  rw [Expr.evaluate, valueAt_eq h, Walk.foldl_full _ hdim, ← List.map_coe_finRange_eq_range,
    List.foldlM_map, entry]
  refine Checked.foldlM_congr (fun k _ acc => ?_) _
  rw [h.leftIndex_ofOffset j.isLt k.isLt, h.rightIndex_ofOffset j.isLt, Expr.evaluate,
    Expr.evaluate, a.read_row_column h.left ha, b.read_row_column h.right hb, Checked.ok_bind,
    Checked.ok_bind]

/-- Materializing the contraction answers exactly if every entry does. -/
theorem eval_eq_ok (ha : d ^ r₁ < Word.limit) (hb : d ^ r₂ < Word.limit) {t : Tensor α d r} :
    (Expr.contraction n h (.tensor a) (.tensor b)).eval = .ok t ↔ d ^ r < Word.limit ∧
      ∀ i j, entry h a b i j = .ok ((t.matricize h.result).get i j) := by
  rw [Expr.eval_eq_ok_matricize h.result]
  simp only [evaluate_tensors h a b ha hb]

/-- Where the entries of the result can be counted, this is exactly if the product of the matrices
answers, with the matrix of the result. -/
theorem eval_eq_ok_iff_direct (ha : d ^ r₁ < Word.limit) (hb : d ^ r₂ < Word.limit)
    (hlen : d ^ r < Word.limit) {t : Tensor α d r} :
    (Expr.contraction n h (.tensor a) (.tensor b)).eval = .ok t ↔
      Product.direct ⟨_, _, a.matricize h.left⟩ ⟨_, _, b.matricize h.right⟩ =
        .ok ⟨_, _, t.matricize h.result⟩ := by
  rw [eval_eq_ok h a b ha hb, Product.direct_eq_ok]
  simp only [hlen, true_and, addProducts_eq_entry h a b]

theorem eval_faults_iff_direct (ha : d ^ r₁ < Word.limit) (hb : d ^ r₂ < Word.limit)
    (hlen : d ^ r < Word.limit) :
    (∃ fault, (Expr.contraction n h (.tensor a) (.tensor b)).eval = .error fault) ↔
      ∃ fault, Product.direct ⟨_, _, a.matricize h.left⟩ ⟨_, _, b.matricize h.right⟩ =
        .error fault := by
  rw [Expr.eval_faults_iff_matricize h.result hlen, Product.direct_faults_iff]
  simp only [evaluate_tensors h a b ha hb, addProducts_eq_entry h a b]

end Contraction

/-- Contracting two tensors is multiplying their matrices, operation for operation. The entry of the
result in row `i` and column `j` is a fold of `acc + x * y` from zero over the inner positions in
order, and materializing the contraction answers exactly if all of these folds do. Where the entries
of the result can be counted, this is exactly if the product of the matrices answers, and then both
hold the same entries. No law of the scalars is used. The operands exist, so an index word counts
their entries. -/
theorem Expr.eval_contraction_eq_product [Scalar α] (h : ContractionShape r₁ r₂ n r)
    (a : Tensor α d r₁) (b : Tensor α d r₂) (ha : d ^ r₁ < Word.limit) (hb : d ^ r₂ < Word.limit) :
    (∀ t : Tensor α d r, (Expr.contraction n h (.tensor a) (.tensor b)).eval = .ok t ↔
      d ^ r < Word.limit ∧
        ∀ i j, Contraction.entry h a b i j = .ok ((t.matricize h.result).get i j)) ∧
    (d ^ r < Word.limit →
      (∀ t : Tensor α d r, (Expr.contraction n h (.tensor a) (.tensor b)).eval = .ok t ↔
        Product.direct ⟨_, _, a.matricize h.left⟩ ⟨_, _, b.matricize h.right⟩ =
          .ok ⟨_, _, t.matricize h.result⟩) ∧
      ((∃ fault, (Expr.contraction n h (.tensor a) (.tensor b)).eval = .error fault) ↔
        ∃ fault, Product.direct ⟨_, _, a.matricize h.left⟩ ⟨_, _, b.matricize h.right⟩ =
          .error fault)) := by
  refine ⟨fun t => Contraction.eval_eq_ok h a b ha hb, fun hlen => ⟨fun t => ?_, ?_⟩⟩
  · exact Contraction.eval_eq_ok_iff_direct h a b ha hb hlen
  · exact Contraction.eval_faults_iff_direct h a b ha hb hlen

attribute [local instance] Scalar.exact

/-- The ranks of the product of two matrices. -/
theorem ContractionShape.matrices : ContractionShape 2 2 1 2 :=
  ⟨by decide, by decide, by decide, by decide, by decide⟩

/-- The product of two integer matrices, as a contraction over one axis. -/
theorem Expr.eval_contraction_eq_product_matrices :
    ∃ a b c : Tensor Int 2 2,
      a.toList = [1, 2, 3, 4] ∧ b.toList = [5, 6, 7, 8] ∧ c.toList = [19, 22, 43, 50] ∧
      (Expr.contraction 1 .matrices (.tensor a) (.tensor b)).eval = .ok c ∧
      Product.direct ⟨_, _, a.matricize (rfl : 1 + 1 = 2)⟩ ⟨_, _, b.matricize (rfl : 1 + 1 = 2)⟩ =
        .ok ⟨_, _, c.matricize (rfl : 1 + 1 = 2)⟩ := by
  have hlen : 2 ^ 2 < Word.limit := by decide
  have hproduct := eval_contraction_eq_product .matrices (⟨#v[1, 2, 3, 4]⟩ : Tensor Int 2 2)
    ⟨#v[5, 6, 7, 8]⟩ hlen hlen
  have heval : (Expr.contraction 1 .matrices (.tensor (⟨#v[1, 2, 3, 4]⟩ : Tensor Int 2 2))
      (.tensor ⟨#v[5, 6, 7, 8]⟩)).eval = .ok ⟨#v[19, 22, 43, 50]⟩ := by
    refine (hproduct.1 ⟨#v[19, 22, 43, 50]⟩).mpr ⟨hlen, ?_⟩
    decide
  exact ⟨_, _, _, rfl, rfl, rfl, heval, ((hproduct.2 hlen).1 _).mp heval⟩

end TensorMechanics
