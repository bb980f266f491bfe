/-!
# Shape errors

What is wrong with the ranks of a node or the length of a buffer. These errors are found before
anything is evaluated, so they carry ranks and lengths only, never an index or a value.
-/

namespace TensorMechanics

/-- A disagreement of ranks, axis counts or lengths. -/
inductive ShapeError where
  /-- A contraction over no axes, which is an outer product. -/
  | noContractedAxes
  /-- More axes are contracted than one of the operands has. -/
  | tooManyContractedAxes (contracted leftRank rightRank : Nat)
  /-- The declared rank is not the rank that the operands imply. -/
  | rankMismatch (expected declared : Nat)
  /-- The contraction consumes every axis, so its value is a scalar and not a tensor. -/
  | scalarResult
  /-- A buffer does not hold as many scalars as the dimension and the rank require. -/
  | storageLength (expected actual : Nat)
  deriving DecidableEq, Repr

/-- The sentence reported for a shape error. -/
def ShapeError.message : ShapeError → String
  | .noContractedAxes => "Contraction must contract at least one axis."
  | .tooManyContractedAxes contracted left right =>
    s!"Cannot contract {contracted} axes of operands with ranks {left} and {right}."
  | .rankMismatch expected declared =>
    s!"Operand ranks imply a result of rank {expected}, but rank {declared} was declared."
  | .scalarResult => "Contraction over all axes yields a scalar. Use `contract_full` instead."
  | .storageLength expected actual =>
    s!"Expected storage of length {expected}, but got {actual} entries."

end TensorMechanics
