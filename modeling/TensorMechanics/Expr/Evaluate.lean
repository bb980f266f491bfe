import TensorMechanics.Expr

/-!
# Evaluation of expressions

An expression is evaluated at one index at a time. Nodes pass the index down without looking at it,
cut and spliced as their ranks demand; only tensors compare it with the dimension. The left operand
is evaluated before the right one, and nothing is kept: an operand that is needed twice is evaluated
twice.

A contraction adds its terms from zero on, in the row-major order of the contracted components. So
its value is one particular sequence of operations, for scalars of any kind.
-/

namespace TensorMechanics

namespace Contraction

variable {α : Type} {r r₁ r₂ n : Nat}

/-- Copies a run of components onto a run of the given length. -/
def copyRun (target : Nat) (source : List Nat) : Checked (List Nat) :=
  if source.length = target then .ok source else .error (.runLength target source.length)

/-- An index with the given components, if they are as many as its rank. -/
def ofRun (r : Nat) (components : List Nat) : Checked (MultiIndex r) :=
  if h : components.length = r then .ok ⟨components, h⟩
  else .error (.runLength r components.length)

/-- The indices of both operands of a contraction of `n` axes. The first `r₁ - n` components of the
result index address the free axes of the left operand, the rest those of the right one, and the
contracted components `k` come last on the left and first on the right. The ranks need not fit; then
a run of components is too short, too long or missing, which is a fault. -/
def operandIndices (r₁ r₂ : Nat) (ix : MultiIndex r) (k : MultiIndex n) :
    Checked (MultiIndex r₁ × MultiIndex r₂) := do
  let free ← Word.sub r₁ n
  if r < free then throw (.rangeOutOfBounds free r)
  if r₂ < n then throw (.rangeStartOutOfBounds n r₂)
  let rightFree ← copyRun (r₂ - n) (ix.components.drop free)
  let left ← ofRun r₁ (ix.components.take free ++ k.components)
  let right ← ofRun r₂ (k.components ++ rightFree)
  return (left, right)

/-- The contraction of two functions of an index over `n` axes, at an index of the result. The terms are
counted beforehand; `valueInBuffers` goes on until the contracted index has no successor. -/
def valueAt [Scalar α] (d n : Nat) (left : MultiIndex r₁ → Checked α) (right : MultiIndex r₂ → Checked α)
    (ix : MultiIndex r) : Checked α :=
  (Walk.full d n).foldl (fun (acc : α) k => do
    let (i, j) ← operandIndices r₁ r₂ ix k
    let x ← left i
    let y ← right j
    Scalar.add acc (← Scalar.mul x y)) Scalar.zero

end Contraction

namespace Expr

variable {α : Type} {d : Nat}

/-- The value of an expression at an index. -/
def evaluate [Scalar α] : {r : Nat} → Expr α d r → MultiIndex r → Checked α
  | _, .tensor t, ix => t.read ix
  | _, .scaled operand alpha, ix => do
    let x ← operand.evaluate ix
    Scalar.mul x alpha
  | _, .sum left right, ix => do
    let x ← left.evaluate ix
    let y ← right.evaluate ix
    Scalar.add x y
  | _, .difference left right, ix => do
    let x ← left.evaluate ix
    let y ← right.evaluate ix
    Scalar.sub x y
  | _, .outer h left right, ix => do
    let x ← left.evaluate (ix.split h).1
    let y ← right.evaluate (ix.split h).2
    Scalar.mul x y
  | _, .contraction n _ left right, ix => Contraction.valueAt d n left.evaluate right.evaluate ix

variable {r : Nat} [Scalar α]

/-- The values of an expression, one after the other. -/
def traversal (e : Expr α d r) : Checked (Traversal d r α) := Traversal.start e.evaluate

/-- The tensor of all values, each evaluated once, in row-major order. -/
def eval (e : Expr α d r) : Checked (Tensor α d r) := do
  let values ← (← e.traversal).toList
  Tensor.ofListOrFault d r values

/-- The sum of the products of the values of both expressions over all indices, from zero on, in
row-major order. -/
def contractFull (left right : Expr α d r) : Checked α := do
  let walk ← Walk.start d r
  walk.foldl (fun (acc : α) ix => do
    let x ← left.evaluate ix
    let y ← right.evaluate ix
    Scalar.add acc (← Scalar.mul x y)) Scalar.zero

/-- Whether both expressions have equal values everywhere. The comparison goes in row-major order
and stops at the first difference. -/
def agree [BEq α] (left right : Expr α d r) : Checked Bool := do
  let walk ← Walk.start d r
  walk.all fun ix => do
    let x ← left.evaluate ix
    let y ← right.evaluate ix
    return x == y

end Expr

end TensorMechanics
