/-!
# Rows and columns of a flat buffer

A buffer of `m` rows of length `n` holds the entry in row `i` and column `j` at position `i * n + j`.
Positions below `m * n` and pairs of a row and a column correspond one to one.
-/

namespace TensorMechanics.Grid

theorem mul_add_lt {m n i j : Nat} (hi : i < m) (hj : j < n) : i * n + j < m * n :=
  calc i * n + j < i * n + n := Nat.add_lt_add_left hj _
    _ = (i + 1) * n := (Nat.succ_mul i n).symm
    _ ≤ m * n := Nat.mul_le_mul_right n hi

/-- The row of a position in a buffer of rows of length `n`. -/
def rowOf {m n : Nat} (p : Fin (m * n)) : Fin m :=
  ⟨p / n, Nat.div_lt_of_lt_mul (Nat.mul_comm m n ▸ p.isLt)⟩

/-- The column of a position in a buffer of rows of length `n`. -/
def columnOf {m n : Nat} (p : Fin (m * n)) : Fin n :=
  ⟨p % n, Nat.mod_lt _ (Nat.pos_of_mul_pos_left (Nat.zero_lt_of_lt p.isLt))⟩

/-- The position of an entry in a buffer of rows of length `n`. -/
def position {m n : Nat} (i : Fin m) (j : Fin n) : Fin (m * n) := ⟨i * n + j, mul_add_lt i.isLt j.isLt⟩

@[simp] theorem rowOf_position {m n : Nat} (i : Fin m) (j : Fin n) : rowOf (position i j) = i := by
  apply Fin.ext
  have hn : 0 < n := Nat.zero_lt_of_lt j.isLt
  simp [rowOf, position, Nat.mul_comm i.val n, Nat.mul_add_div hn, Nat.div_eq_of_lt j.isLt]

@[simp] theorem columnOf_position {m n : Nat} (i : Fin m) (j : Fin n) :
    columnOf (position i j) = j := by
  apply Fin.ext
  simp [columnOf, position, Nat.mod_eq_of_lt j.isLt]

@[simp] theorem position_rowOf_columnOf {m n : Nat} (p : Fin (m * n)) :
    position (rowOf p) (columnOf p) = p := by
  apply Fin.ext
  simp [rowOf, columnOf, position, Nat.mul_comm (p.val / n) n, Nat.div_add_mod]

end TensorMechanics.Grid
