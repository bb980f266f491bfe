import Mathlib
import TensorMechanics.Proofs.Expr.IndexSafety
import TensorMechanics.Scalar.Bounded

/-!
# Proofs: the formula of an expression

An expression stands for a formula: a contraction is the sum over all contracted components, an outer
product is a product, and so on. `Expr.formula` is its value in a semiring. Scalars are seen in the
semiring through a view that their operations respect whenever they answer, such as the integer of a
bounded integer. Then an evaluation that answers has the value of the formula: the loop of a
contraction has added exactly the terms of the sum.
-/

namespace TensorMechanics

variable {α R : Type} {d r : Nat}

/-! ## Views of scalars -/

/-- A view that the operations respect: an operation that answers has the exact result. -/
structure Scalar.ExactView [Scalar α] [Semiring R] [Sub R] (val : α → R) : Prop where
  zero : val Scalar.zero = 0
  add {x y z : α} : Scalar.add x y = .ok z → val z = val x + val y
  sub {x y z : α} : Scalar.sub x y = .ok z → val z = val x - val y
  mul {x y z : α} : Scalar.mul x y = .ok z → val z = val x * val y

theorem Bounded.exactView (range : IntRange) :
    Scalar.ExactView (Bounded.val : Bounded range → Int) where
  zero := rfl
  add := val_result
  sub := val_result
  mul := val_result

/-- If every step of a fold adds a term, the fold adds the sum of the terms. -/
theorem Checked.val_foldlM [AddMonoid R] {val : α → R} {β : Type} {f : α → β → Checked α}
    {term : β → R} {xs : List β}
    (h : ∀ x ∈ xs, ∀ acc y, f acc x = .ok y → val y = val acc + term x) {init y : α}
    (hy : xs.foldlM f init = .ok y) : val y = val init + (xs.map term).sum := by
  induction xs generalizing init with
  | nil =>
    obtain rfl : init = y := by simpa using hy
    simp
  | cons x xs ih =>
    rw [List.foldlM_cons, bind_eq_ok] at hy
    obtain ⟨acc, hacc, hy⟩ := hy
    rw [ih (fun z hz => h z (List.mem_cons_of_mem x hz)) hy, h x List.mem_cons_self init acc hacc,
      List.map_cons, List.sum_cons, add_assoc]

/-! ## Formulas -/

section

variable [Semiring R]

/-- The entry at an index, seen through a view. Out of bounds it is zero. -/
def Tensor.entryAt (val : α → R) (t : Tensor α d r) (ix : MultiIndex r) : R :=
  if h : ix.InBounds d then
    let p : Fin (Nat.pow d r) := ⟨ix.offset d, MultiIndex.offset_lt h⟩
    val t.entries[p]
  else 0

theorem Tensor.val_read (val : α → R) (t : Tensor α d r) (hlen : d ^ r < Word.limit)
    {ix : MultiIndex r} (hix : ix.InBounds d) {x : α} (h : t.read ix = .ok x) :
    val x = t.entryAt val ix := by
  obtain ⟨p, hp, rfl⟩ := hix.exists_ofOffset
  rw [t.read_ofOffset hlen hp] at h
  obtain rfl := Except.ok.inj h
  rw [entryAt, dif_pos hix]
  simp [MultiIndex.offset_ofOffset hp]

variable [Sub R]

/-- The value of the formula that an expression stands for, at an index. -/
def Expr.formula (val : α → R) : {r : Nat} → Expr α d r → MultiIndex r → R
  | _, .tensor t, ix => t.entryAt val ix
  | _, .scaled operand alpha, ix => operand.formula val ix * val alpha
  | _, .sum left right, ix => left.formula val ix + right.formula val ix
  | _, .difference left right, ix => left.formula val ix - right.formula val ix
  | _, .outer h left right, ix => left.formula val (ix.split h).1 * right.formula val (ix.split h).2
  | _, .contraction n h left right, ix =>
    ∑ k : Fin n → Fin d, left.formula val (h.leftIndex ix (.ofComponents k)) *
      right.formula val (h.rightIndex ix (.ofComponents k))

variable [Scalar α]

/-- An evaluation that answers has the value of the formula. -/
theorem Expr.val_of_evaluate {val : α → R} (exact : Scalar.ExactView val) {e : Expr α d r}
    (he : e.Addressable) {ix : MultiIndex r} (hix : ix.InBounds d) {x : α}
    (h : e.evaluate ix = .ok x) : val x = e.formula val ix := by
  induction e generalizing x with
  | tensor t => exact t.val_read val he hix h
  | scaled operand alpha ih =>
    obtain ⟨y, hy, hx⟩ := Checked.bind_eq_ok.mp h
    rw [formula, exact.mul hx, ih he hix hy]
  | sum left right ihl ihr =>
    obtain ⟨y, hy, h⟩ := Checked.bind_eq_ok.mp h
    obtain ⟨z, hz, hx⟩ := Checked.bind_eq_ok.mp h
    rw [formula, exact.add hx, ihl he.1 hix hy, ihr he.2 hix hz]
  | difference left right ihl ihr =>
    obtain ⟨y, hy, h⟩ := Checked.bind_eq_ok.mp h
    obtain ⟨z, hz, hx⟩ := Checked.bind_eq_ok.mp h
    rw [formula, exact.sub hx, ihl he.1 hix hy, ihr he.2 hix hz]
  | outer hrank left right ihl ihr =>
    obtain ⟨hl, hr⟩ := (MultiIndex.inBounds_split hrank ix).mpr hix
    obtain ⟨y, hy, h⟩ := Checked.bind_eq_ok.mp h
    obtain ⟨z, hz, hx⟩ := Checked.bind_eq_ok.mp h
    rw [formula, exact.mul hx, ihl he.1 hl hy, ihr he.2 hr hz]
  | @contraction r₁ r₂ r n hshape left right ihl ihr =>
    have hdim : d < Word.limit := he.1.dim_lt_limit (hshape.pos.trans hshape.le_left)
    rw [evaluate, Contraction.valueAt_eq hshape, Walk.foldl_full _ fun _ => hdim] at h
    let term := fun k : MultiIndex n =>
      left.formula val (hshape.leftIndex ix k) * right.formula val (hshape.rightIndex ix k)
    have hstep : ∀ p ∈ List.range (d ^ n), ∀ acc y, (do
        let x ← left.evaluate (hshape.leftIndex ix (.ofOffset d n p))
        let y ← right.evaluate (hshape.rightIndex ix (.ofOffset d n p))
        Scalar.add acc (← Scalar.mul x y)) = .ok y → val y = val acc + term (.ofOffset d n p) := by
      intro p hp acc y hy
      have hk := MultiIndex.inBounds_ofOffset (List.mem_range.mp hp)
      obtain ⟨hl, hr⟩ := (hshape.inBounds_operands ix (.ofOffset d n p)).mpr ⟨hix, hk⟩
      obtain ⟨u, hu, hy⟩ := Checked.bind_eq_ok.mp hy
      obtain ⟨v, hv, hy⟩ := Checked.bind_eq_ok.mp hy
      obtain ⟨uv, huv, hy⟩ := Checked.bind_eq_ok.mp hy
      rw [exact.add hy, exact.mul huv, ihl he.1 hl hu, ihr he.2 hr hv]
    rw [Checked.val_foldlM hstep h, exact.zero, zero_add, formula, ← MultiIndex.sum_ofOffset term]
    rfl

end

end TensorMechanics
