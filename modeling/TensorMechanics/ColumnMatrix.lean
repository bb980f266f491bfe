import TensorMechanics.Grid
import TensorMechanics.Scalar

/-!
# Dense matrices

A matrix with `m` rows and `n` columns keeps its entries by columns: the entry in row `i` and column
`j` lies at position `j * m + i`. Blocks of consecutive rows or columns are matrices of their own,
and two blocks that cover a matrix can be put together again.

`ColumnMatrix.Sized` is a matrix whose numbers of rows and columns are data, as they are where matrices
are read from outside.
-/

namespace TensorMechanics

/-- A matrix with `m` rows and `n` columns. -/
structure ColumnMatrix (α : Type) (m n : Nat) where
  /-- The entries, column by column. -/
  entries : Vector α (n * m)

namespace ColumnMatrix

open Grid

variable {α : Type} {m k n : Nat}

@[ext] theorem ext_entries {a b : ColumnMatrix α m n} (h : a.entries = b.entries) : a = b := by
  cases a; cases b; cases h; rfl

/-- The matrix with the given entries. -/
def ofFn (f : Fin m → Fin n → α) : ColumnMatrix α m n :=
  ⟨Vector.ofFn fun p => f (columnOf p) (rowOf p)⟩

/-- The entry in a row and a column. -/
def get (a : ColumnMatrix α m n) (i : Fin m) (j : Fin n) : α := a.entries[position j i]

/-- The matrix with one entry replaced. -/
def set (a : ColumnMatrix α m n) (i : Fin m) (j : Fin n) (x : α) : ColumnMatrix α m n :=
  ⟨a.entries.set (position j i).val x (position j i).isLt⟩

/-- The matrix with one value in every entry. -/
def replicate (m n : Nat) (x : α) : ColumnMatrix α m n := ⟨Vector.replicate (n * m) x⟩

/-- The entries, column by column. -/
def toList (a : ColumnMatrix α m n) : List α := a.entries.toList

/-- The matrix with the given entries, column by column, if they are as many as it has. -/
def ofList? (m n : Nat) (xs : List α) : Option (ColumnMatrix α m n) :=
  if h : xs.length = n * m then some ⟨⟨xs.toArray, by simpa using h⟩⟩ else none

@[simp] theorem get_ofFn (f : Fin m → Fin n → α) (i : Fin m) (j : Fin n) : (ofFn f).get i j = f i j := by
  simp only [ofFn, get, Fin.getElem_fin, Vector.getElem_ofFn]
  change f (columnOf (position j i)) (rowOf (position j i)) = f i j
  simp

@[simp] theorem get_replicate (x : α) (i : Fin m) (j : Fin n) : (replicate m n x).get i j = x := by
  simp [replicate, get]

theorem ofFn_get (a : ColumnMatrix α m n) : ofFn a.get = a := by
  ext p hp
  simp only [ofFn, get, Fin.getElem_fin, Vector.getElem_ofFn]
  congr 1
  exact congrArg Fin.val (position_rowOf_columnOf (⟨p, hp⟩ : Fin (n * m)))

/-- Matrices are equal if all entries are. -/
theorem ext_get {a b : ColumnMatrix α m n} (h : ∀ i j, a.get i j = b.get i j) : a = b := by
  rw [← ofFn_get a, ← ofFn_get b]
  congr 1
  funext i j
  exact h i j

theorem get_set (a : ColumnMatrix α m n) (i i' : Fin m) (j j' : Fin n) (x : α) :
    (a.set i j x).get i' j' = if i = i' ∧ j = j' then x else a.get i' j' := by
  simp only [set, get, Fin.getElem_fin, Vector.getElem_set]
  by_cases h : i = i' ∧ j = j'
  · obtain ⟨rfl, rfl⟩ := h
    simp
  · have hne : ¬ (position j i).val = (position j' i').val := by
      intro heq
      have hpos := Fin.ext heq
      exact h ⟨by simpa using congrArg columnOf hpos, by simpa using congrArg rowOf hpos⟩
    simp [h, hne]

/-! ## Blocks -/

section Blocks

variable {m₁ m₂ n₁ n₂ : Nat}

/-- The first `m₁` rows. -/
def topRows (h : m₁ + m₂ = m) (a : ColumnMatrix α m n) : ColumnMatrix α m₁ n :=
  ofFn fun i j => a.get ⟨i, by omega⟩ j

/-- The last `m₂` rows. -/
def bottomRows (h : m₁ + m₂ = m) (a : ColumnMatrix α m n) : ColumnMatrix α m₂ n :=
  ofFn fun i j => a.get ⟨m₁ + i, by omega⟩ j

/-- The first `n₁` columns. -/
def leftColumns (h : n₁ + n₂ = n) (a : ColumnMatrix α m n) : ColumnMatrix α m n₁ :=
  ofFn fun i j => a.get i ⟨j, by omega⟩

/-- The last `n₂` columns. -/
def rightColumns (h : n₁ + n₂ = n) (a : ColumnMatrix α m n) : ColumnMatrix α m n₂ :=
  ofFn fun i j => a.get i ⟨n₁ + j, by omega⟩

/-- A position behind the first part of a side, counted from there, is one of the second part. -/
theorem sub_lt_of_not_lt (h : m₁ + m₂ = m) (i : Fin m) (hi : ¬ i.val < m₁) : i.val - m₁ < m₂ := by
  omega

/-- One block of rows above another. -/
def above (h : m₁ + m₂ = m) (top : ColumnMatrix α m₁ n) (bottom : ColumnMatrix α m₂ n) : ColumnMatrix α m n :=
  ofFn fun i j =>
    if hi : i.val < m₁ then top.get ⟨i, hi⟩ j else bottom.get ⟨i - m₁, sub_lt_of_not_lt h i hi⟩ j

/-- One block of columns beside another. -/
def beside (h : n₁ + n₂ = n) (left : ColumnMatrix α m n₁) (right : ColumnMatrix α m n₂) : ColumnMatrix α m n :=
  ofFn fun i j =>
    if hj : j.val < n₁ then left.get i ⟨j, hj⟩ else right.get i ⟨j - n₁, sub_lt_of_not_lt h j hj⟩

@[simp] theorem topRows_replicate (h : m₁ + m₂ = m) (x : α) :
    (replicate m n x).topRows h = replicate m₁ n x :=
  ext_get fun i j => by simp [topRows]

@[simp] theorem bottomRows_replicate (h : m₁ + m₂ = m) (x : α) :
    (replicate m n x).bottomRows h = replicate m₂ n x :=
  ext_get fun i j => by simp [bottomRows]

@[simp] theorem leftColumns_replicate (h : n₁ + n₂ = n) (x : α) :
    (replicate m n x).leftColumns h = replicate m n₁ x :=
  ext_get fun i j => by simp [leftColumns]

@[simp] theorem rightColumns_replicate (h : n₁ + n₂ = n) (x : α) :
    (replicate m n x).rightColumns h = replicate m n₂ x :=
  ext_get fun i j => by simp [rightColumns]

end Blocks

/-! ## Arithmetic -/

/-- Adds two matrices entry by entry, column by column. -/
def add [Scalar α] (a b : ColumnMatrix α m n) : Checked (ColumnMatrix α m n) := do
  return ⟨← Vector.ofFnM fun p : Fin (n * m) => Scalar.add a.entries[p] b.entries[p]⟩

/-- The same matrix, with equal numbers of rows and columns. -/
def recast {m' n' : Nat} (hm : m = m') (hn : n = n') (a : ColumnMatrix α m n) : ColumnMatrix α m' n' :=
  ⟨a.entries.cast (by rw [hm, hn])⟩

@[simp] theorem recast_rfl (a : ColumnMatrix α m n) : a.recast rfl rfl = a := rfl

/-- A matrix together with the numbers of its rows and columns. -/
structure Sized (α : Type) where
  /-- The number of rows. -/
  rows : Nat
  /-- The number of columns. -/
  columns : Nat
  /-- The entries. -/
  matrix : ColumnMatrix α rows columns

end ColumnMatrix

end TensorMechanics
