import Mathlib
import TensorMechanics.Proofs.Expr.Formula

/-!
# Proofs: access by bounded components

A tensor of low rank is read in two ways: at an index, which is a list of components, and by bounded
components. Both reach the same entry, and a tensor built index by index has the entries that its
components ask for. So sums over indices of low rank become sums over their components.
-/

namespace TensorMechanics

variable {α R : Type} {d r : Nat}

/-! ## Positions of indices of low rank -/

namespace MultiIndex

theorem offset_ofComponents₁ (i : Fin d) : (ofComponents ![i]).offset d = i := by
  simp [offset, ofComponents]

theorem offset_ofComponents₂ (i j : Fin d) : (ofComponents ![i, j]).offset d = i * d + j := by
  simp [offset, ofComponents]

theorem offset_ofComponents₄ (i j k l : Fin d) :
    (ofComponents ![i, j, k, l]).offset d = (i * d + j) * (d * d) + (k * d + l) := by
  simp only [offset, ofComponents, List.ofFn_succ, List.ofFn_zero, List.foldl_cons, List.foldl_nil]
  simp
  ring

end MultiIndex

namespace Tensor

open MultiIndex

/-- The entry at an index is the one at its position. -/
theorem entryAt_eq_of_offset [Semiring R] (val : α → R) (t : Tensor α d r) {ix : MultiIndex r}
    (hix : ix.InBounds d) {p : Fin (Nat.pow d r)} (hp : ix.offset d = p) :
    t.entryAt val ix = val t.entries[p] := by
  have hpos : (⟨ix.offset d, offset_lt hix⟩ : Fin (Nat.pow d r)) = p := Fin.ext hp
  rw [entryAt, dif_pos hix, ← hpos]

theorem entryAt_ofComponents₁ [Semiring R] (val : α → R) (t : Tensor α d 1) (i : Fin d) :
    t.entryAt val (ofComponents ![i]) = val (t.get₁ i) :=
  entryAt_eq_of_offset val t (inBounds_ofComponents _) (offset_ofComponents₁ i)

theorem entryAt_ofComponents₂ [Semiring R] (val : α → R) (t : Tensor α d 2) (i j : Fin d) :
    t.entryAt val (ofComponents ![i, j]) = val (t.get₂ i j) :=
  entryAt_eq_of_offset val t (inBounds_ofComponents _) (offset_ofComponents₂ i j)

theorem entryAt_ofComponents₄ [Semiring R] (val : α → R) (t : Tensor α d 4) (i j k l : Fin d) :
    t.entryAt val (ofComponents ![i, j, k, l]) = val (t.get₄ i j k l) :=
  entryAt_eq_of_offset val t (inBounds_ofComponents _) (offset_ofComponents₄ i j k l)

/-! ## Tensors built index by index -/

theorem getElem_ofFn_of_offset (f : MultiIndex r → α) {ix : MultiIndex r} (hix : ix.InBounds d)
    {p : Fin (Nat.pow d r)} (hp : ix.offset d = p) : (ofFn f : Tensor α d r).entries[p] = f ix := by
  simp only [ofFn, Fin.getElem_fin, Vector.getElem_ofFn]
  rw [← hp, ofOffset_offset hix]

@[simp] theorem get₁_ofFn (f : MultiIndex 1 → α) (i : Fin d) :
    (ofFn f : Tensor α d 1).get₁ i = f (ofComponents ![i]) :=
  getElem_ofFn_of_offset f (inBounds_ofComponents _) (offset_ofComponents₁ i)

@[simp] theorem get₂_ofFn (f : MultiIndex 2 → α) (i j : Fin d) :
    (ofFn f : Tensor α d 2).get₂ i j = f (ofComponents ![i, j]) :=
  getElem_ofFn_of_offset f (inBounds_ofComponents _) (offset_ofComponents₂ i j)

theorem ofFn₁_get₁ (t : Tensor α d 1) : ofFn₁ t.get₁ = t := by
  ext p hp
  simp [ofFn₁, get₁]

theorem ext_get₁ {t u : Tensor α d 1} (h : ∀ i, t.get₁ i = u.get₁ i) : t = u := by
  rw [← ofFn₁_get₁ t, ← ofFn₁_get₁ u, funext h]

theorem ext_get₂ {t u : Tensor α d 2} (h : ∀ i j, t.get₂ i j = u.get₂ i j) : t = u := by
  rw [← ofFn₂_get₂ t, ← ofFn₂_get₂ u, funext fun i => funext (h i)]

theorem ofFn_eq_ofFn₁ (f : MultiIndex 1 → α) :
    (ofFn f : Tensor α d 1) = ofFn₁ fun i => f (ofComponents ![i]) :=
  ext_get₁ fun i => by simp

theorem ofFn_eq_ofFn₂ (f : MultiIndex 2 → α) :
    (ofFn f : Tensor α d 2) = ofFn₂ fun i j => f (ofComponents ![i, j]) :=
  ext_get₂ fun i j => by simp

end Tensor

/-- The value of an outer product of two vectors is a product of two entries. -/
theorem Expr.formula_dyad [Semiring R] [Sub R] (val : α → R) (u v : Tensor α d 1) (i j : Fin d) :
    (Expr.outer dyadRank (.tensor u) (.tensor v)).formula val (.ofComponents ![i, j]) =
      val (u.get₁ i) * val (v.get₁ j) := by
  have hsplit : (MultiIndex.ofComponents ![i, j]).split dyadRank =
      (.ofComponents ![i], .ofComponents ![j]) := by
    refine Prod.ext (MultiIndex.ext ?_) (MultiIndex.ext ?_) <;>
      simp [MultiIndex.split, MultiIndex.ofComponents]
  rw [formula, hsplit, formula, formula, Tensor.entryAt_ofComponents₁, Tensor.entryAt_ofComponents₁]

/-! ## Sums over indices of low rank -/

theorem sum_components₁ {M : Type} [AddCommMonoid M] (g : (Fin 1 → Fin d) → M) :
    ∑ k, g k = ∑ i, g ![i] := by
  rw [← (Equiv.funUnique (Fin 1) (Fin d)).symm.sum_comp g]
  refine Finset.sum_congr rfl fun i _ => congrArg g ?_
  ext a
  simp

theorem sum_components₂ {M : Type} [AddCommMonoid M] (g : (Fin 2 → Fin d) → M) :
    ∑ k, g k = ∑ i, ∑ j, g ![i, j] := by
  rw [← Fintype.sum_prod_type' fun i j => g ![i, j]]
  exact ((finTwoArrowEquiv (Fin d)).symm.sum_comp g).symm

end TensorMechanics
