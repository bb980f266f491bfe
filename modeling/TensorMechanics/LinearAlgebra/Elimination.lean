import TensorMechanics.ColumnMatrix
import TensorMechanics.Scalar

/-!
# Elimination with row exchanges

Gaussian elimination of a square matrix, column by column. In each column the row with the largest
entry on or below the diagonal becomes the pivot row, the first of them if several are equal. The
part below the diagonal keeps the multipliers, so the reduced matrix holds both triangular factors.

Determinants skip a column whose pivot is zero; an inverse does not exist then.
-/

namespace TensorMechanics.LinearAlgebra

open RealScalar

variable {α : Type} [RealScalar α] {n : Nat}

/-- The row of the pivot of column `i`: starting with row `i`, a later row takes over if its entry
is strictly larger in absolute value. -/
def pivotRow (m : ColumnMatrix α n n) (i : Fin n) : Fin n :=
  (List.finRange n).foldl (fun best r =>
    if i < r ∧ below (abs (m.get best i)) (abs (m.get r i)) then r else best) i

/-- The matrix with two rows exchanged. -/
def exchangeRows (i j : Fin n) (m : ColumnMatrix α n n) : ColumnMatrix α n n :=
  .ofFn fun r c => m.get (if r = i then j else if r = j then i else r) c

/-- Eliminates the entries of column `i` below the diagonal, where the pivot already stands on it.
The multipliers take the places of the eliminated entries. -/
def eliminateColumn (i : Fin n) (m : ColumnMatrix α n n) : ColumnMatrix α n n :=
  let inverse := 1 / m.get i i
  .ofFn fun r c =>
    if i < r then
      let multiplier := m.get r i * inverse
      if c = i then multiplier
      else if i < c then -m.get i c * multiplier + m.get r c
      else m.get r c
    else m.get r c

/-- The determinant by elimination. -/
def eliminationDeterminant (m : ColumnMatrix α n n) : α :=
  let (reduced, odd) := (List.finRange n).foldl (fun (state : ColumnMatrix α n n × Bool) i =>
    let (m, odd) := state
    let p := pivotRow m i
    if m.get p i == 0 then (m, odd)
    else (eliminateColumn i (exchangeRows i p m), odd ^^ decide (p ≠ i))) (m, false)
  let product := (List.finRange n).foldl (fun acc i => acc * reduced.get i i) 1
  product * if odd then -1 else 1

/-- The reduced matrix together with the identity after the same row exchanges, unless a pivot is
zero. -/
def reduce? (m : ColumnMatrix α n n) : Option (ColumnMatrix α n n × ColumnMatrix α n n) :=
  (List.finRange n).foldlM (fun (m, out) i =>
    let p := pivotRow m i
    if m.get p i == 0 then none
    else some (eliminateColumn i (exchangeRows i p m), exchangeRows i p out))
    (m, .ofFn fun i j => if i = j then 1 else 0)

/-- Solves for the lower factor, whose diagonal is one: entry `i` of a column is final when the
entries below it are reduced by it. -/
def forwardSubstitute (m out : ColumnMatrix α n n) : ColumnMatrix α n n :=
  (List.finRange n).foldl (fun out i =>
    .ofFn fun r c => if i < r then -out.get i c * m.get r i + out.get r c else out.get r c) out

/-- Solves for the upper factor, from the last row up, unless its diagonal holds a zero. -/
def backSubstitute? (m out : ColumnMatrix α n n) : Option (ColumnMatrix α n n) :=
  (List.finRange n).reverse.foldlM (fun out i =>
    if m.get i i == 0 then none
    else some (.ofFn fun r c =>
      let solved := out.get i c / m.get i i
      if r = i then solved
      else if r < i then -solved * m.get r i + out.get r c
      else out.get r c)) out

/-- The inverse by elimination, unless the matrix is singular. -/
def eliminationInverse? (m : ColumnMatrix α n n) : Option (ColumnMatrix α n n) := do
  let (reduced, exchanged) ← reduce? m
  backSubstitute? reduced (forwardSubstitute reduced exchanged)

end TensorMechanics.LinearAlgebra
