import TensorMechanics.ColumnMatrix
import TensorMechanics.Expr.Evaluate

/-!
# Linear algebra of small tensors

Vectors are tensors of rank one, matrices are tensors of rank two. The operations here work for
scalars of every kind; those that compute may fault, and the first faulting operation decides.

`toColumnMatrix` and its inverse change between storage by rows and storage by columns.
-/

namespace TensorMechanics.LinearAlgebra

variable {α : Type} {d : Nat}

/-- The identity: one on the diagonal, else zero. -/
def identity (α : Type) [Scalar α] (d : Nat) : Tensor α d 2 :=
  .ofFn₂ fun i j => if i = j then Scalar.one else Scalar.zero

/-- The matrix with rows and columns exchanged. -/
def transpose (m : Tensor α d 2) : Tensor α d 2 := .ofFn₂ fun i j => m.get₂ j i

/-- The sum of the diagonal, from zero on. -/
def trace [Scalar α] (m : Tensor α d 2) : Checked α :=
  (List.finRange d).foldlM (fun acc i => Scalar.add acc (m.get₂ i i)) Scalar.zero

/-- A product minus another product, the left one computed first. -/
def productDifference [Scalar α] (a b c e : α) : Checked α := do
  let x ← Scalar.mul a b
  let y ← Scalar.mul c e
  Scalar.sub x y

/-- The cross product. -/
def cross [Scalar α] (a b : Tensor α 3 1) : Checked (Tensor α 3 1) := do
  let x ← productDifference (a.get₁ 1) (b.get₁ 2) (a.get₁ 2) (b.get₁ 1)
  let y ← productDifference (a.get₁ 2) (b.get₁ 0) (a.get₁ 0) (b.get₁ 2)
  let z ← productDifference (a.get₁ 0) (b.get₁ 1) (a.get₁ 1) (b.get₁ 0)
  return ⟨#v[x, y, z]⟩

/-- The square root of the sum of the squares of all values. -/
def norm [RealScalar α] {r : Nat} (e : Expr α d r) : Checked α :=
  RealScalar.sqrt <$> e.contractFull e

/-- The same matrix, stored by columns. -/
def toColumnMatrix (m : Tensor α d 2) : ColumnMatrix α d d := .ofFn m.get₂

/-- The same matrix, stored by rows. -/
def ofColumnMatrix (m : ColumnMatrix α d d) : Tensor α d 2 := .ofFn₂ m.get

/-- A vector as a matrix of one column. -/
def toColumn (v : Tensor α d 1) : ColumnMatrix α d 1 := .ofFn fun i _ => v.get₁ i

/-- The column of a matrix of one column. -/
def ofColumn (m : ColumnMatrix α d 1) : Tensor α d 1 := .ofFn₁ fun i => m.get i 0

end TensorMechanics.LinearAlgebra
