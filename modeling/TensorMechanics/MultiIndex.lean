import TensorMechanics.Word

/-!
# Multi-indices

A multi-index of rank `r` is a list of `r` components. In a tensor of dimension `d` it addresses an
entry if every component is below `d`, and the entries lie in storage in row-major order: the last
component varies fastest.

`MultiIndex.linearOffset` and `MultiIndex.unravel` convert between an index and its position, by
Horner's rule and by repeated division. `MultiIndex.increment` advances an index to its successor
by carrying. All of them compute with index words, and so may fault.

The bounds check of `MultiIndex.linearOffset` and all faults of index words are those of a debug build,
which checks its assertions and every arithmetic operation.
-/

namespace TensorMechanics

/-- A list of `r` components. -/
@[ext] structure MultiIndex (r : Nat) where
  /-- The components, the slowest first. -/
  components : List Nat
  length_components : components.length = r
  deriving DecidableEq, Repr

/-- The number of entries of a tensor, as a product of index words: one is multiplied by the
dimension once per axis. -/
def storageLength (d r : Nat) : Checked Nat :=
  grow r 1
where
  /-- Multiplies a length by the dimension, a number of times. -/
  grow : Nat → Nat → Checked Nat
    | 0, len => .ok len
    | r + 1, len =>
      match Word.mul len d with
      | .ok len => grow r len
      | .error fault => .error fault

namespace MultiIndex

variable {r : Nat}

/-- The component of an axis. -/
def component (ix : MultiIndex r) (k : Fin r) : Nat :=
  ix.components.get ⟨k, ix.length_components.symm ▸ k.isLt⟩

/-! ## Particular indices -/

/-- The first index: all components are zero. -/
def zeros (r : Nat) : MultiIndex r := ⟨List.replicate r 0, List.length_replicate⟩

/-- The positions `0, 1, …, n - 1`. -/
def positions (n : Nat) : MultiIndex n := ⟨List.range n, List.length_range⟩

/-- The positions `offset, offset + 1, …, offset + n - 1`, if the last is an index word. -/
def positionsFrom (offset n : Nat) : Checked (MultiIndex n) :=
  if n = 0 ∨ offset + (n - 1) < Word.limit then
    .ok ⟨List.range' offset n, List.length_range'⟩
  else
    .error (.overflow .addition)

/-! ## Splitting and joining -/

/-- The first `r₁` and the last `r₂` components. -/
def split {r₁ r₂ : Nat} (h : r₁ + r₂ = r) (ix : MultiIndex r) : MultiIndex r₁ × MultiIndex r₂ :=
  (⟨ix.components.take r₁, by have := ix.length_components; simp; omega⟩,
   ⟨ix.components.drop r₁, by have := ix.length_components; simp; omega⟩)

/-- The components of the left index, then those of the right one. -/
def join {r₁ r₂ : Nat} (h : r₁ + r₂ = r) (left : MultiIndex r₁) (right : MultiIndex r₂) :
    MultiIndex r :=
  ⟨left.components ++ right.components, by
    simp [left.length_components, right.length_components, h]⟩

/-! ## Positions in storage -/

/-- Every component is below the dimension. -/
def InBounds (d : Nat) (ix : MultiIndex r) : Prop := ∀ i ∈ ix.components, i < d

instance (d : Nat) (ix : MultiIndex r) : Decidable (ix.InBounds d) :=
  inferInstanceAs (Decidable (∀ i ∈ ix.components, i < d))

/-- Horner's rule in base `d`, from the slowest component on. -/
def horner (d : Nat) (offset : Nat) : List Nat → Checked Nat
  | [] => .ok offset
  | i :: is => do
    let scaled ← Word.mul offset d
    let offset ← Word.add scaled i
    horner d offset is

/-- The position of an index. The bounds are checked before anything is computed. This check is an
assertion of debug builds only, and the faults of the multiplications and additions on the way are the
overflow checks of a debug build. -/
def linearOffset (d : Nat) (ix : MultiIndex r) : Checked Nat :=
  if ix.InBounds d then horner d 0 ix.components
  else .error (.indexOutOfBounds ix.components d)

/-- The `r` digits of a number in base `d`, the last digit varying fastest. -/
def digits (d : Nat) : Nat → Nat → List Nat
  | 0, _ => []
  | r + 1, offset => digits d r (offset / d) ++ [offset % d]

@[simp] theorem length_digits (d r offset : Nat) : (digits d r offset).length = r := by
  induction r generalizing offset with
  | zero => rfl
  | succ r ih => simp [digits, ih]

/-- The index at a position. -/
def ofOffset (d r offset : Nat) : MultiIndex r := ⟨digits d r offset, length_digits d r offset⟩

/-- The digits of a position, by divisions that fault for a zero divisor. -/
def checkedDigits (d : Nat) : Nat → Nat → Checked (List Nat)
  | 0, _ => .ok []
  | r + 1, offset => do
    let low ← Word.mod offset d
    let high ← Word.div offset d
    return (← checkedDigits d r high) ++ [low]

/-- The index at a position, which must be below the number of entries. -/
def unravel (d r offset : Nat) : Checked (MultiIndex r) := do
  let len ← storageLength d r
  if offset < len then
    let components ← checkedDigits d r offset
    if h : components.length = r then return ⟨components, h⟩
    else throw (.runLength r components.length)
  else
    throw .offsetOutOfRange

/-! ## Successors -/

/-- Advances a list of components to its successor, carrying from the last one to the first. The
answer is whether a component could be advanced; components that carried are zero afterwards, also
if a later step faults. -/
def advance (d : Nat) : List Nat → Checked Bool × List Nat
  | [] => (.ok false, [])
  | i :: is =>
    match advance d is with
    | (.ok false, is) =>
      match Word.add i 1 with
      | .ok j => if j < d then (.ok true, j :: is) else (.ok false, 0 :: is)
      | .error fault => (.error fault, i :: is)
    | (outcome, is) => (outcome, i :: is)

theorem length_advance (d : Nat) (is : List Nat) : (advance d is).2.length = is.length := by
  induction is with
  | nil => rfl
  | cons i is ih =>
    unfold advance
    split
    next js h =>
      rw [h] at ih
      split
      · split <;> simp [ih]
      · simp [ih]
    next outcome js h =>
      rw [h] at ih
      simp [ih]

/-- Advances an index to its successor. The answer is false for the last index, which becomes the
first one. -/
def increment (d : Nat) (ix : MultiIndex r) : Checked Bool × MultiIndex r :=
  ((advance d ix.components).1,
   ⟨(advance d ix.components).2, (length_advance d ix.components).trans ix.length_components⟩)

/-- How many times a list of components can be advanced at most. A component that is not below the
dimension carries at once, as the last one below it does. -/
def ahead (d : Nat) : List Nat → Nat
  | [] => 0
  | i :: is => (d - 1 - i) * Nat.pow d is.length + ahead d is

theorem ahead_lt {d : Nat} (hd : 0 < d) (is : List Nat) : ahead d is < Nat.pow d is.length := by
  induction is with
  | nil => exact Nat.one_pos
  | cons i is ih =>
    have hsplit : (d - 1) * Nat.pow d is.length + Nat.pow d is.length = Nat.pow d (is.length + 1) := by
      rw [← Nat.succ_mul, Nat.succ_eq_add_one, Nat.sub_add_cancel hd, Nat.mul_comm]
      rfl
    have hfirst : (d - 1 - i) * Nat.pow d is.length ≤ (d - 1) * Nat.pow d is.length :=
      Nat.mul_le_mul_right _ (Nat.sub_le _ _)
    rw [ahead, List.length_cons]
    omega

theorem ahead_advance {d : Nat} {is : List Nat} (h : (advance d is).1 = .ok true) :
    ahead d (advance d is).2 < ahead d is := by
  induction is with
  | nil => cases h
  | cons i is ih =>
    have hlength := length_advance d is
    unfold advance at h ⊢
    split at h
    next js hjs =>
      rw [hjs] at hlength
      split at h
      next j hj =>
        split at h
        next hlt =>
          -- this component advances and all behind it are zero now
          obtain rfl : i + 1 = j := by
            unfold Word.add at hj
            split at hj
            · exact Except.ok.inj hj
            · cases hj
          have hcarried := ahead_lt (Nat.zero_lt_of_lt hlt) js
          have hstep : (d - 1 - (i + 1)) * Nat.pow d is.length + Nat.pow d is.length =
              (d - 1 - i) * Nat.pow d is.length := by
            rw [← Nat.succ_mul]
            congr 1
            omega
          simp only [if_pos hlt, ahead, hlength] at hcarried ⊢
          omega
        next => cases h
      next => cases h
    next outcome js hjs =>
      rw [hjs] at hlength ih
      simp only [ahead, hlength]
      exact Nat.add_lt_add_left (ih h) _

theorem ahead_increment {d : Nat} {ix successor : MultiIndex r}
    (h : ix.increment d = (.ok true, successor)) :
    ahead d successor.components < ahead d ix.components := by
  obtain ⟨hanswer, rfl⟩ := Prod.mk.inj h
  exact ahead_advance hanswer

end MultiIndex

end TensorMechanics
