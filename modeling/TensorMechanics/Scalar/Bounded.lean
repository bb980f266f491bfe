import TensorMechanics.Scalar

/-!
# Bounded integers

Integers between two fixed ends. An operation computes the exact integer and faults if it lies
outside, so arithmetic on bounded integers either agrees with arithmetic on integers or stops.
The view of a bounded integer is its value `Bounded.val`.
-/

namespace TensorMechanics

/-- The ends of a range of integers that has room for zero and one. -/
structure IntRange where
  /-- The least member. -/
  lo : Int
  /-- The greatest member. -/
  hi : Int
  lo_le_zero : lo ≤ 0 := by decide
  one_le_hi : 1 ≤ hi := by decide

namespace IntRange

/-- Signed numbers of 64 bits. -/
def signed64 : IntRange where
  lo := -9223372036854775808
  hi := 9223372036854775807

/-- Signed numbers of 32 bits. -/
def signed32 : IntRange where
  lo := -2147483648
  hi := 2147483647

/-- Unsigned numbers of 8 bits. -/
def unsigned8 : IntRange where
  lo := 0
  hi := 255

/-- Unsigned numbers of 64 bits. -/
def unsigned64 : IntRange where
  lo := 0
  hi := 18446744073709551615

end IntRange

/-- An integer of the range. -/
@[ext] structure Bounded (range : IntRange) where
  /-- The integer. -/
  val : Int
  lo_le : range.lo ≤ val
  le_hi : val ≤ range.hi
  deriving DecidableEq

namespace Bounded

variable {range : IntRange}

/-- The integer as a member of the range, if it is one. -/
def ofInt? (range : IntRange) (n : Int) : Option (Bounded range) :=
  if h : range.lo ≤ n ∧ n ≤ range.hi then some ⟨n, h.1, h.2⟩ else none

/-- The exact result of an operation, if it is in the range. -/
def result (operation : Operation) (n : Int) : Checked (Bounded range) :=
  if h : range.lo ≤ n ∧ n ≤ range.hi then .ok ⟨n, h.1, h.2⟩ else .error (.overflow operation)

instance : Scalar (Bounded range) where
  zero := ⟨0, range.lo_le_zero, Int.le_trans (by decide) range.one_le_hi⟩
  one := ⟨1, Int.le_trans range.lo_le_zero (by decide), range.one_le_hi⟩
  add a b := result .addition (a.val + b.val)
  sub a b := result .subtraction (a.val - b.val)
  mul a b := result .multiplication (a.val * b.val)

theorem val_result {operation : Operation} {n : Int} {x : Bounded range}
    (h : result operation n = .ok x) : x.val = n := by
  unfold result at h
  split at h
  · injection h with h
    exact h ▸ rfl
  · cases h

theorem result_of_mem {operation : Operation} {n : Int} (lo : range.lo ≤ n) (hi : n ≤ range.hi) :
    result operation n = .ok (⟨n, lo, hi⟩ : Bounded range) :=
  dif_pos ⟨lo, hi⟩

theorem zero_add (x : Bounded range) : Scalar.add Scalar.zero x = .ok x := by
  show result .addition (0 + x.val) = .ok x
  rw [Int.zero_add]
  exact result_of_mem x.lo_le x.le_hi

theorem add_comm (x y : Bounded range) : Scalar.add x y = Scalar.add y x := by
  show result .addition (x.val + y.val) = result .addition (y.val + x.val)
  rw [Int.add_comm]

/-! ## Operations on numbers of small magnitude -/

section Magnitude

variable {x y : Bounded range} {b c : Nat}

/-- In a range that holds the negatives of its members, a result of small magnitude is a member. -/
theorem exists_result_of_natAbs_le (hrange : range.lo ≤ -range.hi) {operation : Operation} {n : Int}
    (h : n.natAbs ≤ b) (hb : (b : Int) ≤ range.hi) :
    ∃ z : Bounded range, result operation n = .ok z ∧ z.val.natAbs ≤ b :=
  ⟨⟨n, by omega, by omega⟩, result_of_mem _ _, h⟩

theorem exists_add_of_natAbs_le (hrange : range.lo ≤ -range.hi) (hx : x.val.natAbs ≤ b)
    (hy : y.val.natAbs ≤ c) (h : ((b + c : Nat) : Int) ≤ range.hi) :
    ∃ z, Scalar.add x y = .ok z ∧ z.val.natAbs ≤ b + c :=
  exists_result_of_natAbs_le hrange (by omega) h

theorem exists_sub_of_natAbs_le (hrange : range.lo ≤ -range.hi) (hx : x.val.natAbs ≤ b)
    (hy : y.val.natAbs ≤ c) (h : ((b + c : Nat) : Int) ≤ range.hi) :
    ∃ z, Scalar.sub x y = .ok z ∧ z.val.natAbs ≤ b + c :=
  exists_result_of_natAbs_le hrange (by omega) h

theorem exists_mul_of_natAbs_le (hrange : range.lo ≤ -range.hi) (hx : x.val.natAbs ≤ b)
    (hy : y.val.natAbs ≤ c) (h : ((b * c : Nat) : Int) ≤ range.hi) :
    ∃ z, Scalar.mul x y = .ok z ∧ z.val.natAbs ≤ b * c :=
  exists_result_of_natAbs_le hrange (Int.natAbs_mul .. ▸ Nat.mul_le_mul hx hy) h

end Magnitude

end Bounded

end TensorMechanics
