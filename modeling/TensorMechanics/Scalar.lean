import TensorMechanics.Fault

/-!
# Scalars

Two kinds of numbers fill tensors. A `Scalar` can be added, subtracted and multiplied, and each
operation may stop with a fault; this is all that tensors, expressions and products of matrices
need. A `RealScalar` is a number whose operations always answer, with division, square roots and an
order; the mechanics of elements needs it.

No law is assumed of the operations. Floating-point numbers satisfy few, and for exact arithmetic
`Scalar.exact` turns any structure with the three ring operations into scalars that never fault.
-/

namespace TensorMechanics

/-- Numbers with addition, subtraction and multiplication, each of which may fault. -/
class Scalar (α : Type) where
  zero : α
  one : α
  add : α → α → Checked α
  sub : α → α → Checked α
  mul : α → α → Checked α

/-- Scalars whose operations always answer. -/
@[reducible] def Scalar.exact (α : Type) [Zero α] [One α] [Add α] [Sub α] [Mul α] : Scalar α where
  zero := 0
  one := 1
  add a b := .ok (a + b)
  sub a b := .ok (a - b)
  mul a b := .ok (a * b)

/-- Numbers for continuum mechanics. Equality is the comparison of the number type, which for
floating-point numbers is not identity. -/
class RealScalar (α : Type) extends
    Zero α, One α, Add α, Sub α, Mul α, Neg α, Div α, BEq α where
  /-- The absolute value. -/
  abs : α → α
  /-- The square root. -/
  sqrt : α → α
  /-- Whether the first number is strictly below the second. -/
  below : α → α → Bool

/-- Real scalars never fault. -/
instance RealScalar.toScalar {α : Type} [RealScalar α] : Scalar α := Scalar.exact α

/-- A natural number as a sum of ones. Small numbers are exact in every number type. -/
def RealScalar.natural (α : Type) [RealScalar α] : Nat → α
  | 0 => 0
  | n + 1 => natural α n + 1

/-- One half. -/
def RealScalar.half (α : Type) [RealScalar α] : α := 1 / natural α 2

/-- Kronecker's delta: one for equal arguments, else zero. -/
def delta (α : Type) [RealScalar α] {d : Nat} (i j : Fin d) : α := if i = j then 1 else 0

end TensorMechanics
