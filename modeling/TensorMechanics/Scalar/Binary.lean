import TensorMechanics.Scalar

/-!
# Binary floating-point scalars

The numbers of the two usual binary formats as real scalars. Every operation rounds once to its
format; comparisons follow the format, so a NaN differs from itself and both zeros are equal.
-/

namespace TensorMechanics

instance : RealScalar Float where
  zero := 0.0
  one := 1.0
  abs := Float.abs
  sqrt := Float.sqrt
  below a b := a < b

instance : RealScalar Float32 where
  zero := 0.0
  one := 1.0
  abs := Float32.abs
  sqrt := Float32.sqrt
  below a b := a < b

end TensorMechanics
