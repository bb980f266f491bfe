import Mathlib
import TensorMechanics.ColumnMatrix
import TensorMechanics.Proofs.Checked

/-!
# Proofs: matrices that collect contributions

A matrix is assembled by steps that each add something to some of its entries. `ColumnMatrix.Adds`
says what a step adds to every entry. Steps one after the other add the sum of what each of them adds,
so an entry of the assembled matrix is read off without following the order of the steps.
-/

namespace TensorMechanics

variable {α β M : Type} {m n d : Nat}

/-! ## Positions as pairs -/

namespace Grid

theorem position_eq_iff {p : Fin (m * n)} {i : Fin m} {j : Fin n} :
    p = position i j ↔ rowOf p = i ∧ columnOf p = j := by
  constructor
  · rintro rfl
    exact ⟨rowOf_position i j, columnOf_position i j⟩
  · rintro ⟨rfl, rfl⟩
    exact (position_rowOf_columnOf p).symm

/-- Positions correspond to pairs of a row and a column. -/
def pairs : Fin m × Fin n ≃ Fin (m * n) where
  toFun x := position x.1 x.2
  invFun p := (rowOf p, columnOf p)
  left_inv x := Prod.ext (rowOf_position x.1 x.2) (columnOf_position x.1 x.2)
  right_inv p := position_rowOf_columnOf p

/-- Summing over positions is summing over rows and columns. -/
theorem sum_position [AddCommMonoid M] (f : Fin (m * n) → M) :
    ∑ p, f p = ∑ i, ∑ j, f (position i j) := by
  rw [← pairs.sum_comp f, Fintype.sum_prod_type]
  rfl

end Grid

namespace ColumnMatrix

/-- The matrix as a function of rows and columns. -/
def toMatrix (a : ColumnMatrix α m n) : Matrix (Fin m) (Fin n) α := Matrix.of a.get

/-! ## Loops over a range -/

/-- A loop over a finite range in which only one step changes an entry. -/
theorem get_foldl_finRange {f : ColumnMatrix α m n → Fin d → ColumnMatrix α m n} {r : Fin m}
    {c : Fin n} {P : Prop} [Decidable P] {j : Fin d} {g : α → α}
    (h : ∀ y a, (f a y).get r c = if P ∧ y = j then g (a.get r c) else a.get r c)
    (a : ColumnMatrix α m n) :
    ((List.finRange d).foldl f a).get r c = if P then g (a.get r c) else a.get r c := by
  have hlist : ∀ ys : List (Fin d), ys.Nodup → ∀ a,
      (ys.foldl f a).get r c = if P ∧ j ∈ ys then g (a.get r c) else a.get r c := by
    intro ys
    induction ys with
    | nil => simp
    | cons y ys ih =>
      intro hnodup a
      obtain ⟨hy, hys⟩ := List.nodup_cons.mp hnodup
      rw [List.foldl_cons, ih hys, h]
      -- the step of `j` is either this one or a later one
      by_cases hj : y = j
      · subst hj
        simp [hy]
      · simp [hj, Ne.symm hj]
  simpa using hlist (List.finRange d) (List.nodup_finRange d) a

/-! ## Contributions -/

variable [AddMonoid α]

/-- What has been added to each entry between two matrices. -/
def Adds (before after : ColumnMatrix α m n) (x : Fin m → Fin n → α) : Prop :=
  ∀ i j, after.get i j = before.get i j + x i j

namespace Adds

variable {a b c : ColumnMatrix α m n} {x y : Fin m → Fin n → α}

theorem refl (a : ColumnMatrix α m n) : Adds a a fun _ _ => 0 := fun _ _ => (add_zero _).symm

theorem trans (h : Adds a b x) (h' : Adds b c y) : Adds a c fun i j => x i j + y i j := by
  intro i j
  rw [h' i j, h i j, add_assoc]

theorem congr (h : Adds a b x) (hx : ∀ i j, x i j = y i j) : Adds a b y :=
  fun i j => (h i j).trans (congrArg _ (hx i j))

end Adds

/-- Steps one after the other, none of which faults, add what all of them add. -/
theorem exists_foldlM_adds {f : ColumnMatrix α m n → β → Checked (ColumnMatrix α m n)}
    {x : β → Fin m → Fin n → α} {ys : List β}
    (h : ∀ y ∈ ys, ∀ a, ∃ b, f a y = .ok b ∧ Adds a b (x y)) (a : ColumnMatrix α m n) :
    ∃ b, ys.foldlM f a = .ok b ∧ Adds a b fun i j => (ys.map fun y => x y i j).sum := by
  induction ys generalizing a with
  | nil => exact ⟨a, rfl, .refl a⟩
  | cons y ys ih =>
    obtain ⟨b, hb, hadds⟩ := h y List.mem_cons_self a
    obtain ⟨c, hc, hrest⟩ := ih (fun z hz => h z (List.mem_cons_of_mem y hz)) b
    exact ⟨c, by rw [List.foldlM_cons, hb, Checked.ok_bind, hc], hadds.trans hrest⟩

end ColumnMatrix

end TensorMechanics
