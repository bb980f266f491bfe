import TensorMechanics.LinearAlgebra
import TensorMechanics.LinearAlgebra.Elimination

/-!
# Determinants and inverses

Matrices of dimension one to three have their determinant and their inverse by cofactors written
out. From dimension four on determinants are computed by elimination. Inverses of dimension four
expand the cofactors in a fixed order, larger ones are computed by elimination too.

The determinant and the inverse of a nearly singular matrix of dimension four may therefore
disagree on whether it is singular.
-/

namespace TensorMechanics.LinearAlgebra

variable {α : Type} [RealScalar α] {d : Nat}

/-- The determinant of a matrix of dimension two. -/
def determinant₂ (m : Fin 2 → Fin 2 → α) : α := m 0 0 * m 1 1 - m 0 1 * m 1 0

/-- The determinant of a matrix of dimension three, expanded along the first row. -/
def determinant₃ (m : Fin 3 → Fin 3 → α) : α :=
  m 0 0 * (m 1 1 * m 2 2 - m 1 2 * m 2 1) - m 0 1 * (m 1 0 * m 2 2 - m 1 2 * m 2 0)
    + m 0 2 * (m 1 0 * m 2 1 - m 1 1 * m 2 0)

/-- The determinant. -/
def determinant : {d : Nat} → Tensor α d 2 → α
  | 1, m => m.get₂ 0 0
  | 2, m => determinant₂ m.get₂
  | 3, m => determinant₃ m.get₂
  | _, m => eliminationDeterminant (toColumnMatrix m)

/-- The transposed cofactors of a matrix of dimension two. -/
def adjugate₂ (m : Tensor α 2 2) : Tensor α 2 2 :=
  .ofFn₂ fun i j => (if i = j then 1 else -1) * m.get₂ (1 - j) (1 - i)

/-- The transposed cofactors of a matrix of dimension three. Cyclic shifts of rows and columns give
each minor its sign. -/
def adjugate₃ (m : Tensor α 3 2) : Tensor α 3 2 :=
  .ofFn₂ fun i j =>
    m.get₂ (j + 1) (i + 1) * m.get₂ (j + 2) (i + 2) - m.get₂ (j + 1) (i + 2) * m.get₂ (j + 2) (i + 1)

/-- The transposed cofactors divided by the determinant, unless that is zero. -/
def cofactorInverse? (m adjugate : Tensor α d 2) : Option (Tensor α d 2) :=
  let det := determinant m
  if det == 0 then none else some (adjugate.map (· * (1 / det)))

/-- The transposed cofactors of a matrix of dimension four, from its entries by columns. Each row
lists a column of the result. -/
def cofactors₄ (m : Fin 16 → α) : Vector (Vector α 4) 4 :=
  #v[#v[ m 5 * m 10 * m 15 - m 5 * m 11 * m 14 - m 9 * m 6 * m 15
          + m 9 * m 7 * m 14 + m 13 * m 6 * m 11 - m 13 * m 7 * m 10,
        -m 1 * m 10 * m 15 + m 1 * m 11 * m 14 + m 9 * m 2 * m 15
          - m 9 * m 3 * m 14 - m 13 * m 2 * m 11 + m 13 * m 3 * m 10,
         m 1 * m 6 * m 15 - m 1 * m 7 * m 14 - m 5 * m 2 * m 15
          + m 5 * m 3 * m 14 + m 13 * m 2 * m 7 - m 13 * m 3 * m 6,
        -m 1 * m 6 * m 11 + m 1 * m 7 * m 10 + m 5 * m 2 * m 11
          - m 5 * m 3 * m 10 - m 9 * m 2 * m 7 + m 9 * m 3 * m 6],
     #v[-m 4 * m 10 * m 15 + m 4 * m 11 * m 14 + m 8 * m 6 * m 15
          - m 8 * m 7 * m 14 - m 12 * m 6 * m 11 + m 12 * m 7 * m 10,
         m 0 * m 10 * m 15 - m 0 * m 11 * m 14 - m 8 * m 2 * m 15
          + m 8 * m 3 * m 14 + m 12 * m 2 * m 11 - m 12 * m 3 * m 10,
        -m 0 * m 6 * m 15 + m 0 * m 7 * m 14 + m 4 * m 2 * m 15
          - m 4 * m 3 * m 14 - m 12 * m 2 * m 7 + m 12 * m 3 * m 6,
         m 0 * m 6 * m 11 - m 0 * m 7 * m 10 - m 4 * m 2 * m 11
          + m 4 * m 3 * m 10 + m 8 * m 2 * m 7 - m 8 * m 3 * m 6],
     #v[ m 4 * m 9 * m 15 - m 4 * m 11 * m 13 - m 8 * m 5 * m 15
          + m 8 * m 7 * m 13 + m 12 * m 5 * m 11 - m 12 * m 7 * m 9,
        -m 0 * m 9 * m 15 + m 0 * m 11 * m 13 + m 8 * m 1 * m 15
          - m 8 * m 3 * m 13 - m 12 * m 1 * m 11 + m 12 * m 3 * m 9,
         m 0 * m 5 * m 15 - m 0 * m 7 * m 13 - m 4 * m 1 * m 15
          + m 4 * m 3 * m 13 + m 12 * m 1 * m 7 - m 12 * m 3 * m 5,
        -m 0 * m 5 * m 11 + m 0 * m 7 * m 9 + m 4 * m 1 * m 11
          - m 4 * m 3 * m 9 - m 8 * m 1 * m 7 + m 8 * m 3 * m 5],
     #v[-m 4 * m 9 * m 14 + m 4 * m 10 * m 13 + m 8 * m 5 * m 14
          - m 8 * m 6 * m 13 - m 12 * m 5 * m 10 + m 12 * m 6 * m 9,
         m 0 * m 9 * m 14 - m 0 * m 10 * m 13 - m 8 * m 1 * m 14
          + m 8 * m 2 * m 13 + m 12 * m 1 * m 10 - m 12 * m 2 * m 9,
        -m 0 * m 5 * m 14 + m 0 * m 6 * m 13 + m 4 * m 1 * m 14
          - m 4 * m 2 * m 13 - m 12 * m 1 * m 6 + m 12 * m 2 * m 5,
         m 0 * m 5 * m 10 - m 0 * m 6 * m 9 - m 4 * m 1 * m 10
          + m 4 * m 2 * m 9 + m 8 * m 1 * m 6 - m 8 * m 2 * m 5]]

/-- The inverse of a matrix of dimension four by its expanded cofactors, unless their expansion
along the first column is zero. -/
def expandedInverse? (m : ColumnMatrix α 4 4) : Option (Tensor α 4 2) :=
  let entry (p : Fin 16) : α := m.entries[p]
  let columns := cofactors₄ entry
  let first := columns[0]
  let det := entry 0 * first[0] + entry 1 * columns[1][0] + entry 2 * columns[2][0]
    + entry 3 * columns[3][0]
  if det == 0 then none
  else some (.ofFn₂ fun i j => columns[j][i] * (1 / det))

/-- The inverse, unless the matrix is singular. -/
def inverse? : {d : Nat} → Tensor α d 2 → Option (Tensor α d 2)
  | 1, m => cofactorInverse? m (identity α 1)
  | 2, m => cofactorInverse? m (adjugate₂ m)
  | 3, m => cofactorInverse? m (adjugate₃ m)
  | 4, m => expandedInverse? (toColumnMatrix m)
  | _, m => ofColumnMatrix <$> eliminationInverse? (toColumnMatrix m)

end TensorMechanics.LinearAlgebra
