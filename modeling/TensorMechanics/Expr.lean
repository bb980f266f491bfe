import TensorMechanics.Tensor

/-!
# Tensor expressions

An expression describes a value for every index of its rank. Tensors are the leaves; the other nodes
scale, add, subtract, multiply and contract the expressions below them. The rank is part of the
type, and the nodes that change it carry the proof that their ranks fit, so every expression that
exists is well formed.

`Expr.outer?` and `Expr.contraction?` build these nodes from a declared rank that is checked when
the program runs. `ContractionShape` says which ranks a contraction may have, and
`contractionShape?` finds the first condition that fails.
-/

namespace TensorMechanics

/-- The ranks that fit a contraction of the last `n` axes of the left operand with the first `n`
axes of the right one. -/
structure ContractionShape (r₁ r₂ n r : Nat) : Prop where
  pos : 1 ≤ n
  le_left : n ≤ r₁
  le_right : n ≤ r₂
  /-- An axis is left, so the result is no scalar. -/
  free : 2 * n < r₁ + r₂
  rank : r + 2 * n = r₁ + r₂

/-- Checks the ranks of a contraction. The conditions are tried in a fixed order and the first that
fails is the error. -/
def contractionShape? (r₁ r₂ n declared : Nat) :
    Except ShapeError (PLift (ContractionShape r₁ r₂ n declared)) :=
  if h₀ : n = 0 then .error .noContractedAxes
  else if h₁ : r₁ < n ∨ r₂ < n then .error (.tooManyContractedAxes n r₁ r₂)
  else if h₂ : r₁ + r₂ = 2 * n then .error .scalarResult
  else if h₃ : declared + 2 * n = r₁ + r₂ then
    .ok ⟨by omega, by omega, by omega, by omega, h₃⟩
  else .error (.rankMismatch (r₁ + r₂ - 2 * n) declared)

/-- Checks the rank of an outer product. -/
def outerShape? (r₁ r₂ declared : Nat) : Except ShapeError (PLift (r₁ + r₂ = declared)) :=
  if h : r₁ + r₂ = declared then .ok ⟨h⟩ else .error (.rankMismatch (r₁ + r₂) declared)

/-- The rank of the outer product of two vectors. -/
theorem dyadRank : 1 + 1 = 2 := rfl

/-- An expression over tensors of dimension `d`, of a given rank. -/
inductive Expr (α : Type) (d : Nat) : Nat → Type where
  /-- The entry of a tensor. -/
  | tensor {r : Nat} (t : Tensor α d r) : Expr α d r
  /-- The value of the operand times a number. -/
  | scaled {r : Nat} (operand : Expr α d r) (alpha : α) : Expr α d r
  /-- The sum of the values of both operands. -/
  | sum {r : Nat} (left right : Expr α d r) : Expr α d r
  /-- The value of the left operand minus that of the right one. -/
  | difference {r : Nat} (left right : Expr α d r) : Expr α d r
  /-- The product of the left operand at the first components and of the right one at the rest. -/
  | outer {r₁ r₂ r : Nat} (h : r₁ + r₂ = r) (left : Expr α d r₁) (right : Expr α d r₂) : Expr α d r
  /-- The sum of products over the last `n` axes of the left and the first `n` of the right
  operand. -/
  | contraction {r₁ r₂ r : Nat} (n : Nat) (h : ContractionShape r₁ r₂ n r) (left : Expr α d r₁)
      (right : Expr α d r₂) : Expr α d r

namespace Expr

variable {α : Type} {d r r₁ r₂ : Nat}

/-- The outer product, if the declared rank is the sum of the ranks. -/
def outer? (left : Expr α d r₁) (right : Expr α d r₂) (declared : Nat) :
    Except ShapeError (Expr α d declared) :=
  match outerShape? r₁ r₂ declared with
  | .ok h => .ok (.outer h.down left right)
  | .error e => .error e

/-- The contraction over `n` axes, if the ranks fit. -/
def contraction? (n : Nat) (left : Expr α d r₁) (right : Expr α d r₂) (declared : Nat) :
    Except ShapeError (Expr α d declared) :=
  match contractionShape? r₁ r₂ n declared with
  | .ok h => .ok (.contraction n h.down left right)
  | .error e => .error e

/-- The factor of the outermost node, if it scales its operand. -/
def factor? : Expr α d r → Option α
  | .scaled _ alpha => some alpha
  | _ => none

end Expr

end TensorMechanics
