import TensorMechanics.ShapeError

/-!
# Faults

A computation over tensors stops at the first operation that has no answer: an integer that leaves
the range of its type, an index outside the tensor, operands of unequal size. `Fault` names these
causes, `Fault.message` is their wording, and `Checked` is a computation that may end in one.

Because `Checked` is an exception monad, the order of the operations is the order of the binds, and
"the first fault decides" is a property of every program written in it.
-/

namespace TensorMechanics

/-- The arithmetic operations that may leave the range of a type. -/
inductive Operation where
  | addition
  | subtraction
  | multiplication
  deriving DecidableEq, Repr

/-- The verb that a message uses for an operation. -/
def Operation.verb : Operation → String
  | .addition => "add"
  | .subtraction => "subtract"
  | .multiplication => "multiply"

/-- Why a computation stopped. -/
inductive Fault where
  /-- The exact result of an operation does not fit its type. -/
  | overflow (operation : Operation)
  /-- A quotient by zero. -/
  | zeroDivisor
  /-- A remainder by zero. -/
  | zeroModulus
  /-- A multi-index has a component that is not below the dimension. -/
  | indexOutOfBounds (index : List Nat) (dim : Nat)
  /-- A position is not below the number of entries. -/
  | offsetOutOfRange
  /-- A position is not below the length of the buffer. -/
  | positionOutOfRange (length position : Nat)
  /-- A range of positions ends beyond the length of the buffer. -/
  | rangeOutOfBounds (stop length : Nat)
  /-- A range of positions starts beyond the length of the buffer. -/
  | rangeStartOutOfBounds (start length : Nat)
  /-- A run of components is copied onto a run of another length. -/
  | runLength (target source : Nat)
  /-- A buffer is cut into pieces of length zero. -/
  | emptyPieces
  /-- A shape error where no recovery is possible. -/
  | shape (error : ShapeError)
  /-- The number of nodes is not the number of reference gradients. -/
  | gradientCount (nodes gradients : Nat)
  /-- A quadrature point has another number of nodes than the first one. -/
  | nodeCount (actual expected : Nat)
  /-- The left factor has another number of columns than the right factor has rows. -/
  | innerDimensions (left right : Nat)
  /-- The target of a product has other dimensions than the product. -/
  | outputShape (actual expected : Nat × Nat)
  deriving DecidableEq, Repr

/-- A computation that may stop with a fault. -/
abbrev Checked := Except Fault

/-- The items of a list between brackets, separated by commas. -/
def bracketed (items : List String) : String :=
  "[" ++ ", ".intercalate items ++ "]"

/-- A pair of numbers between parentheses. -/
def pairText (p : Nat × Nat) : String :=
  "(" ++ toString p.1 ++ ", " ++ toString p.2 ++ ")"

/-- The report of two values that should have been equal. -/
def unequalText (reason left right : String) : String :=
  "assertion `left == right` failed: " ++ reason ++ "\n  left: " ++ left ++ "\n right: " ++ right

/-- The sentence reported for a fault. -/
def Fault.message : Fault → String
  | .overflow operation => s!"attempt to {operation.verb} with overflow"
  | .zeroDivisor => "attempt to divide by zero"
  | .zeroModulus => "attempt to calculate the remainder with a divisor of zero"
  | .indexOutOfBounds index dim =>
    "multi-index " ++ bracketed (index.map toString) ++ s!" is out of bounds for dimension {dim}"
  | .offsetOutOfRange => "assertion failed: offset < storage_len(D, R)"
  | .positionOutOfRange length position =>
    s!"index out of bounds: the len is {length} but the index is {position}"
  | .rangeOutOfBounds stop length =>
    s!"range end index {stop} out of range for slice of length {length}"
  | .rangeStartOutOfBounds start length =>
    s!"range start index {start} out of range for slice of length {length}"
  | .runLength target source =>
    s!"source slice length ({source}) does not match destination slice length ({target})"
  | .emptyPieces => "chunk size must be non-zero"
  | .shape error => error.message
  | .gradientCount nodes gradients =>
    unequalText "Need one reference gradient per node." (toString nodes) (toString gradients)
  | .nodeCount actual expected =>
    unequalText "Node count must agree across quadrature points." (toString actual)
      (toString expected)
  | .innerDimensions left right =>
    unequalText "Inner dimensions of the factors must agree." (toString left) (toString right)
  | .outputShape actual expected =>
    unequalText "Output must have as many rows as A and as many columns as B." (pairText actual)
      (pairText expected)

end TensorMechanics
