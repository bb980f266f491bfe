import Mathlib
import TensorMechanics.Proofs.Expr.Formula

/-!
# Proofs: expressions over exact numbers

Over exact numbers no operation faults, so an expression in bounds has the value of its formula, and
nothing else can happen. Materializing and contracting in full follow: the tensor holds the values of
the formula, and the full contraction is the sum of the products over all indices.
-/

namespace TensorMechanics

/-- A fold that adds a term in each step adds the sum of the terms. -/
theorem Checked.foldlM_add {α β : Type} [AddMonoid α] {f : α → β → Checked α} {term : β → α}
    {xs : List β} (h : ∀ x ∈ xs, ∀ acc, f acc x = .ok (acc + term x)) (init : α) :
    xs.foldlM f init = .ok (init + (xs.map term).sum) := by
  obtain ⟨y, hy⟩ := exists_foldlM_eq_ok (fun x hx acc => ⟨_, h x hx acc⟩) init
  have hsum : y = init + (xs.map term).sum := by
    have hstep : ∀ x ∈ xs, ∀ acc z, f acc x = .ok z → id z = id acc + term x := fun x hx acc z hz =>
      (Except.ok.inj ((h x hx acc).symm.trans hz)).symm
    exact val_foldlM hstep hy
  rw [hy, hsum]

variable {α : Type} [Semiring α] [Sub α] {d r : Nat}

attribute [local instance] Scalar.exact

/-- Exact numbers are their own view. -/
theorem Scalar.exactView_id : Scalar.ExactView (id : α → α) where
  zero := rfl
  add h := (Except.ok.inj h).symm
  sub h := (Except.ok.inj h).symm
  mul h := (Except.ok.inj h).symm

namespace Expr

theorem evaluate_eq_formula {e : Expr α d r} (he : e.Addressable) {ix : MultiIndex r}
    (hix : ix.InBounds d) : e.evaluate ix = .ok (e.formula id ix) := by
  obtain ⟨x, hx⟩ := evaluate_of_inBounds (Scalar.exact_total α) he hix
  have hvalue : x = e.formula id ix := val_of_evaluate Scalar.exactView_id he hix hx
  rw [hx, hvalue]

/-- Materializing gives the tensor of the values of the formula. -/
theorem eval_eq_ofFn {e : Expr α d r} (he : e.Addressable) (hlen : d ^ r < Word.limit) :
    e.eval = .ok (.ofFn (e.formula id)) := by
  refine eval_eq_ok.mpr ⟨hlen, fun p hp => ?_⟩
  rw [evaluate_eq_formula he (MultiIndex.inBounds_ofOffset hp), Tensor.ofFn, Vector.getElem_ofFn]

theorem contractFull_eq_sum {e f : Expr α d r} (he : e.Addressable) (hf : f.Addressable)
    (hlen : d ^ r < Word.limit) :
    e.contractFull f =
      .ok (∑ k : Fin r → Fin d, e.formula id (.ofComponents k) * f.formula id (.ofComponents k)) := by
  let term := fun ix : MultiIndex r => e.formula id ix * f.formula id ix
  have hstep : ∀ p ∈ List.range (d ^ r), ∀ acc : α, (do
      let x ← e.evaluate (.ofOffset d r p)
      let y ← f.evaluate (.ofOffset d r p)
      Scalar.add acc (← Scalar.mul x y)) = .ok (acc + term (.ofOffset d r p)) := by
    intro p hp acc
    have hix := MultiIndex.inBounds_ofOffset (List.mem_range.mp hp)
    rw [evaluate_eq_formula he hix, evaluate_eq_formula hf hix]
    rfl
  rw [contractFull, Walk.start_of_lt hlen, Checked.ok_bind,
    Walk.foldl_full _ (MultiIndex.dim_lt_limit hlen), Checked.foldlM_add hstep,
    ← MultiIndex.sum_ofOffset term]
  congr 1
  exact zero_add _

end Expr

end TensorMechanics
