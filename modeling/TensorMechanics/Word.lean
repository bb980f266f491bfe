import TensorMechanics.Fault

/-!
# Index words

Dimensions, ranks, positions and index components are natural numbers below `2 ^ 64`. The operations
here compute on natural numbers and stop with a fault where the exact result is no such number, so
a result that is returned is always the exact one.
-/

namespace TensorMechanics.Word

/-- The first number that is not an index word. -/
def limit : Nat := 18446744073709551616

/-- The sum, if it is an index word. -/
def add (a b : Nat) : Checked Nat :=
  if a + b < limit then .ok (a + b) else .error (.overflow .addition)

/-- The difference, if it is not negative. -/
def sub (a b : Nat) : Checked Nat :=
  if b ≤ a then .ok (a - b) else .error (.overflow .subtraction)

/-- The product, if it is an index word. -/
def mul (a b : Nat) : Checked Nat :=
  if a * b < limit then .ok (a * b) else .error (.overflow .multiplication)

/-- The quotient, if the divisor is not zero. -/
def div (a b : Nat) : Checked Nat :=
  if b = 0 then .error .zeroDivisor else .ok (a / b)

/-- The remainder, if the divisor is not zero. -/
def mod (a b : Nat) : Checked Nat :=
  if b = 0 then .error .zeroModulus else .ok (a % b)

/-- The number of leading zeros among the 64 binary digits of an index word. -/
def leadingZeros (n : Nat) : Nat := (BitVec.ofNat 64 n).clz.toNat

theorem add_of_lt {a b : Nat} (h : a + b < limit) : add a b = .ok (a + b) := if_pos h

theorem mul_of_lt {a b : Nat} (h : a * b < limit) : mul a b = .ok (a * b) := if_pos h

theorem sub_of_le {a b : Nat} (h : b ≤ a) : sub a b = .ok (a - b) := if_pos h

theorem leadingZeros_le (n : Nat) : leadingZeros n ≤ 64 :=
  BitVec.le_def.mp (BitVec.clz_le (x := BitVec.ofNat 64 n))

end TensorMechanics.Word
