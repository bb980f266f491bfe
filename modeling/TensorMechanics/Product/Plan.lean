/-!
# Plans for blocked products

A plan says how the product of an `m × k` by a `k × n` matrix is cut into blocks. A block that is
small enough is a leaf; a larger one is cut in half along the longest of its three sides, rows
before columns before the inner side. A cut on one of the first `depth` levels is forked: its halves
may be computed at the same time.

The halves of a cut cover its side, which each cut carries as a proof, so a plan is a tiling by its
type. `Plan.build` makes the plan for a leaf size and a depth, where leaf size zero counts as one.
`Plan.buildWithin?` and `Plan.firstLevels` take the leaf size as it is given. With leaf size zero the
calls do not end, so both take the number of levels of calls that may be made.
-/

namespace TensorMechanics.Product

/-- How to cut a product of an `m × k` by a `k × n` matrix. -/
inductive Plan : (m k n : Nat) → Type where
  /-- One side is empty: there is nothing to do. -/
  | skip {m k n : Nat} : Plan m k n
  /-- The block is multiplied directly. -/
  | leaf {m k n : Nat} : Plan m k n
  /-- The rows of the left factor are cut. -/
  | rows {m k n : Nat} (m₁ m₂ : Nat) (h : m₁ + m₂ = m) (forked : Bool) (top : Plan m₁ k n)
      (bottom : Plan m₂ k n) : Plan m k n
  /-- The columns of the right factor are cut. -/
  | columns {m k n : Nat} (n₁ n₂ : Nat) (h : n₁ + n₂ = n) (forked : Bool) (left : Plan m k n₁)
      (right : Plan m k n₂) : Plan m k n
  /-- The inner side is cut: both halves contribute to every entry. -/
  | inner {m k n : Nat} (k₁ k₂ : Nat) (h : k₁ + k₂ = k) (forked : Bool) (first : Plan m k₁ n)
      (second : Plan m k₂ n) : Plan m k n

theorem half_add_half (size : Nat) : size / 2 + (size - size / 2) = size := by omega

namespace Plan

/-- The plan whose leaves have no side above the leaf size, and whose first `depth` levels of cuts
are forked. A leaf size of zero counts as one. -/
def build (leafSize depth m k n : Nat) : Plan m k n :=
  if m = 0 ∨ n = 0 ∨ k = 0 then .skip
  else if max (max m n) k ≤ max leafSize 1 then .leaf
  else if n ≤ m ∧ k ≤ m then
    .rows (m / 2) (m - m / 2) (by omega) (decide (0 < depth))
      (build leafSize (depth - 1) (m / 2) k n) (build leafSize (depth - 1) (m - m / 2) k n)
  else if k ≤ n then
    .columns (n / 2) (n - n / 2) (by omega) (decide (0 < depth))
      (build leafSize (depth - 1) m k (n / 2)) (build leafSize (depth - 1) m k (n - n / 2))
  else
    .inner (k / 2) (k - k / 2) (by omega) (decide (0 < depth))
      (build leafSize (depth - 1) m (k / 2) n) (build leafSize (depth - 1) m (k - k / 2) n)
termination_by m + k + n
decreasing_by all_goals omega

/-- The number of forked cuts. -/
def forks {m k n : Nat} : Plan m k n → Nat
  | .skip => 0
  | .leaf => 0
  | .rows _ _ _ forked top bottom => forked.toNat + top.forks + bottom.forks
  | .columns _ _ _ forked left right => forked.toNat + left.forks + right.forks
  | .inner _ _ _ forked first second => forked.toNat + first.forks + second.forks

/-- The greatest number of forked cuts inside each other. -/
def nesting {m k n : Nat} : Plan m k n → Nat
  | .skip => 0
  | .leaf => 0
  | .rows _ _ _ forked top bottom => forked.toNat + max top.nesting bottom.nesting
  | .columns _ _ _ forked left right => forked.toNat + max left.nesting right.nesting
  | .inner _ _ _ forked first second => forked.toNat + max first.nesting second.nesting

/-- The greatest number of tasks at the same time: the halves of a forked cut are two tasks, and those of
another cut are worked on in turn. -/
def tasks {m k n : Nat} : Plan m k n → Nat
  | .skip => 1
  | .leaf => 1
  | .rows _ _ _ forked top bottom =>
    if forked then top.tasks + bottom.tasks else max top.tasks bottom.tasks
  | .columns _ _ _ forked left right =>
    if forked then left.tasks + right.tasks else max left.tasks right.tasks
  | .inner _ _ _ forked first second =>
    if forked then first.tasks + second.tasks else max first.tasks second.tasks

/-! ## Levels of calls -/

/-- The plan for the leaf size as it is given, if it is found with at most a number of calls inside
each other. -/
def buildWithin? : (levels leafSize depth m k n : Nat) → Option (Plan m k n)
  | 0, _, _, _, _, _ => none
  | levels + 1, leafSize, depth, m, k, n =>
    if m = 0 ∨ n = 0 ∨ k = 0 then some .skip
    else if max (max m n) k ≤ leafSize then some .leaf
    else if n ≤ m ∧ k ≤ m then do
      let top ← buildWithin? levels leafSize (depth - 1) (m / 2) k n
      let bottom ← buildWithin? levels leafSize (depth - 1) (m - m / 2) k n
      return .rows (m / 2) (m - m / 2) (half_add_half m) (decide (0 < depth)) top bottom
    else if k ≤ n then do
      let left ← buildWithin? levels leafSize (depth - 1) m k (n / 2)
      let right ← buildWithin? levels leafSize (depth - 1) m k (n - n / 2)
      return .columns (n / 2) (n - n / 2) (half_add_half n) (decide (0 < depth)) left right
    else do
      let first ← buildWithin? levels leafSize (depth - 1) m (k / 2) n
      let second ← buildWithin? levels leafSize (depth - 1) m (k - k / 2) n
      return .inner (k / 2) (k - k / 2) (half_add_half k) (decide (0 < depth)) first second

/-- The first levels of the plan for the leaf size as it is given. With leaf size zero the plan has no last
level. -/
def firstLevels : (levels leafSize depth m k n : Nat) → Plan m k n
  | 0, _, _, _, _, _ => .skip
  | levels + 1, leafSize, depth, m, k, n =>
    if m = 0 ∨ n = 0 ∨ k = 0 then .skip
    else if max (max m n) k ≤ leafSize then .leaf
    else if n ≤ m ∧ k ≤ m then
      .rows (m / 2) (m - m / 2) (half_add_half m) (decide (0 < depth))
        (firstLevels levels leafSize (depth - 1) (m / 2) k n)
        (firstLevels levels leafSize (depth - 1) (m - m / 2) k n)
    else if k ≤ n then
      .columns (n / 2) (n - n / 2) (half_add_half n) (decide (0 < depth))
        (firstLevels levels leafSize (depth - 1) m k (n / 2))
        (firstLevels levels leafSize (depth - 1) m k (n - n / 2))
    else
      .inner (k / 2) (k - k / 2) (half_add_half k) (decide (0 < depth))
        (firstLevels levels leafSize (depth - 1) m (k / 2) n)
        (firstLevels levels leafSize (depth - 1) m (k - k / 2) n)

end Plan

/-! ## Boxes -/

/-- A box of index triples: rows, inner positions and columns, each from a first one on. -/
structure Box where
  /-- The first row and the number of rows. -/
  rows : Nat × Nat
  /-- The first inner position and their number. -/
  inner : Nat × Nat
  /-- The first column and the number of columns. -/
  columns : Nat × Nat
  deriving DecidableEq, Repr

/-- The boxes of the leaves of a plan whose own box starts at the given row, inner position and
column. -/
def Plan.boxes {m k n : Nat} : Plan m k n → (row mid column : Nat) → List Box
  | .skip, _, _, _ => []
  | .leaf, row, mid, column => [⟨(row, m), (mid, k), (column, n)⟩]
  | .rows m₁ _ _ _ top bottom, row, mid, column =>
    top.boxes row mid column ++ bottom.boxes (row + m₁) mid column
  | .columns n₁ _ _ _ left right, row, mid, column =>
    left.boxes row mid column ++ right.boxes row mid (column + n₁)
  | .inner k₁ _ _ _ first second, row, mid, column =>
    first.boxes row mid column ++ second.boxes row (mid + k₁) column

end TensorMechanics.Product
