import TensorMechanics.Grid
import TensorMechanics.MultiIndex.Traversal
import TensorMechanics.Scalar

/-!
# Dense tensors

A tensor of dimension `d` and rank `r` holds `d ^ r` entries in row-major order: the last component
of an index varies fastest. The number of entries is part of the type, so every operation keeps it.

An entry is addressed in two ways. `Tensor.read` and `Tensor.write` take any index and fault if it
is out of bounds. `Tensor.get₁`, `Tensor.get₂` and `Tensor.get₄` take components that are below the
dimension by their type, and always answer; they serve the formulas of linear algebra.
-/

namespace TensorMechanics

/-- A dense tensor of dimension `d` and rank `r`. -/
structure Tensor (α : Type) (d r : Nat) where
  /-- The entries in row-major order. -/
  entries : Vector α (Nat.pow d r)

/-- Tensors are equal if all entries are, as the scalars compare. -/
instance {α : Type} {d r : Nat} [BEq α] : BEq (Tensor α d r) := ⟨fun t u => t.entries == u.entries⟩

namespace Tensor

open Grid

variable {α β : Type} {d r : Nat}

@[ext] theorem ext {t u : Tensor α d r} (h : t.entries = u.entries) : t = u := by
  cases t; cases u; cases h; rfl

/-! ## Construction -/

/-- The tensor with one value in every entry. -/
def replicate (d r : Nat) (x : α) : Tensor α d r := ⟨Vector.replicate (Nat.pow d r) x⟩

/-- The tensor of zeros. -/
def zeros (α : Type) [Scalar α] (d r : Nat) : Tensor α d r := replicate d r Scalar.zero

/-- The tensor with a given value at each index. -/
def ofFn (f : MultiIndex r → α) : Tensor α d r :=
  ⟨Vector.ofFn fun p => f (MultiIndex.ofOffset d r p)⟩

/-- Runs a computation for each index, in row-major order, and collects the results. -/
def ofFnM {m : Type → Type} [Monad m] (f : MultiIndex r → m α) : m (Tensor α d r) := do
  return ⟨← Vector.ofFnM fun p : Fin (Nat.pow d r) => f (MultiIndex.ofOffset d r p)⟩

/-- The entries in row-major order. -/
def toList (t : Tensor α d r) : List α := t.entries.toList

@[simp] theorem length_toList (t : Tensor α d r) : t.toList.length = Nat.pow d r :=
  Vector.length_toList

/-- The tensor with the given entries in row-major order, which are as many as the tensor has. -/
def ofLength (xs : List α) (h : xs.length = Nat.pow d r) : Tensor α d r := ⟨⟨xs.toArray, by simpa using h⟩⟩

/-- The tensor with the given entries in row-major order, if they are as many as it has. -/
def ofList (d r : Nat) (xs : List α) : Except ShapeError (Tensor α d r) :=
  if h : xs.length = Nat.pow d r then .ok (ofLength xs h)
  else .error (.storageLength (Nat.pow d r) xs.length)

/-- The tensor with the given entries in row-major order. A wrong number of them is a fault. -/
def ofListOrFault (d r : Nat) (xs : List α) : Checked (Tensor α d r) :=
  match ofList d r xs with
  | .ok t => .ok t
  | .error e => .error (.shape e)

@[simp] theorem toList_ofLength (xs : List α) (h : xs.length = Nat.pow d r) :
    (ofLength xs h).toList = xs := by
  simp [ofLength, toList]

theorem ofList_toList (t : Tensor α d r) : ofList d r t.toList = .ok t := by
  simp only [ofList, length_toList, dite_true, ofLength]
  congr 1

theorem ofList_eq_ok {xs : List α} {t : Tensor α d r} : ofList d r xs = .ok t ↔ xs = t.toList := by
  constructor
  · intro h
    unfold ofList at h
    split at h
    next hlen =>
      obtain rfl := Except.ok.inj h
      rw [toList_ofLength]
    next => cases h
  · rintro rfl
    exact t.ofList_toList

/-! ## Access by any index -/

/-- The entry at an index. -/
def read (t : Tensor α d r) (ix : MultiIndex r) : Checked α :=
  match ix.linearOffset d with
  | .ok p => if h : p < Nat.pow d r then .ok t.entries[p] else .error (.positionOutOfRange (Nat.pow d r) p)
  | .error fault => .error fault

/-- The tensor with the entry at an index replaced. -/
def write (t : Tensor α d r) (ix : MultiIndex r) (x : α) : Checked (Tensor α d r) :=
  match ix.linearOffset d with
  | .ok p => if h : p < Nat.pow d r then .ok ⟨t.entries.set p x h⟩ else .error (.positionOutOfRange (Nat.pow d r) p)
  | .error fault => .error fault

/-! ## Whole tensors -/

/-- The tensor with every entry replaced by one value. -/
def fill (_ : Tensor α d r) (x : α) : Tensor α d r := replicate d r x

/-- Applies a function to every entry. -/
def map (f : α → β) (t : Tensor α d r) : Tensor β d r := ⟨t.entries.map f⟩

/-- Runs a computation on every entry, in storage order, and collects the results. -/
def mapM {m : Type → Type} [Monad m] (f : α → m β) (t : Tensor α d r) : m (Tensor β d r) := do
  return ⟨← t.entries.mapM f⟩

/-- Exchanges the entries at two positions. The first position is checked first. -/
def swap (t : Tensor α d r) (p q : Nat) : Checked (Tensor α d r) :=
  if hp : p < Nat.pow d r then
    if hq : q < Nat.pow d r then .ok ⟨t.entries.swap p q hp hq⟩
    else .error (.positionOutOfRange (Nat.pow d r) q)
  else .error (.positionOutOfRange (Nat.pow d r) p)

/-! ## Access by bounded components -/

/-- Components of vectors of low dimension may be named by numerals. -/
instance oneNeZero : @NeZero Nat Zero.ofOfNat0 1 := ⟨Nat.succ_ne_zero 0⟩

instance twoNeZero : @NeZero Nat Zero.ofOfNat0 2 := ⟨Nat.succ_ne_zero 1⟩

instance threeNeZero : @NeZero Nat Zero.ofOfNat0 3 := ⟨Nat.succ_ne_zero 2⟩

/-- The rank-1 tensor with the given components. -/
def ofFn₁ (f : Fin d → α) : Tensor α d 1 := ⟨Vector.ofFn fun p => f (p.cast (Nat.pow_one d))⟩

/-- A component of a rank-1 tensor. -/
def get₁ (t : Tensor α d 1) (i : Fin d) : α := t.entries[i.cast (Nat.pow_one d).symm]

theorem sq_eq (d : Nat) : Nat.pow d 2 = d * d := Nat.pow_two d

/-- The rank-2 tensor with the given entries. -/
def ofFn₂ (f : Fin d → Fin d → α) : Tensor α d 2 :=
  ⟨Vector.ofFn fun p => f (rowOf (p.cast (sq_eq d))) (columnOf (p.cast (sq_eq d)))⟩

/-- An entry of a rank-2 tensor. -/
def get₂ (t : Tensor α d 2) (i j : Fin d) : α := t.entries[(position i j).cast (sq_eq d).symm]

theorem fourth_eq (d : Nat) : Nat.pow d 4 = d * d * (d * d) := by
  simp [Nat.pow_succ, Nat.mul_assoc]

/-- The rank-4 tensor with the given entries. -/
def ofFn₄ (f : Fin d → Fin d → Fin d → Fin d → α) : Tensor α d 4 :=
  ⟨Vector.ofFn fun p =>
    let high := rowOf (p.cast (fourth_eq d))
    let low := columnOf (p.cast (fourth_eq d))
    f (rowOf high) (columnOf high) (rowOf low) (columnOf low)⟩

/-- An entry of a rank-4 tensor. -/
def get₄ (t : Tensor α d 4) (i j k l : Fin d) : α :=
  t.entries[(position (position i j) (position k l)).cast (fourth_eq d).symm]

@[simp] theorem get₁_ofFn₁ (f : Fin d → α) (i : Fin d) : (ofFn₁ f).get₁ i = f i := by
  simp [ofFn₁, get₁]

@[simp] theorem get₂_ofFn₂ (f : Fin d → Fin d → α) (i j : Fin d) : (ofFn₂ f).get₂ i j = f i j := by
  simp only [ofFn₂, get₂, Fin.getElem_fin, Vector.getElem_ofFn]
  change f (rowOf (position i j)) (columnOf (position i j)) = f i j
  simp

@[simp] theorem get₄_ofFn₄ (f : Fin d → Fin d → Fin d → Fin d → α) (i j k l : Fin d) :
    (ofFn₄ f).get₄ i j k l = f i j k l := by
  simp only [ofFn₄, get₄, Fin.getElem_fin, Vector.getElem_ofFn]
  change f (rowOf (rowOf (position (position i j) (position k l))))
    (columnOf (rowOf (position (position i j) (position k l))))
    (rowOf (columnOf (position (position i j) (position k l))))
    (columnOf (columnOf (position (position i j) (position k l)))) = f i j k l
  simp

/-- The entries of a rank-2 tensor by rows. -/
theorem ofFn₂_get₂ (t : Tensor α d 2) : ofFn₂ t.get₂ = t := by
  ext p hp
  simp only [ofFn₂, get₂, Fin.getElem_fin, Vector.getElem_ofFn]
  have h := position_rowOf_columnOf (Fin.cast (sq_eq d) ⟨p, hp⟩)
  congr 1
  exact congrArg Fin.val h

end Tensor

end TensorMechanics
