import Mathlib
import TensorMechanics.Proofs.Product.Entries
import TensorMechanics.Proofs.Product.Plan

/-!
# Proofs: products of exact numbers

Over a semiring all ways to cut a product compute the same matrix. The accumulating contract carries
the induction: a complete plan adds the sum of all terms to the old entry, so an unforked cut of the
inner side adds the first part of the sum and then the second, and a forked one adds both partial
sums, in either order, to the old entry.
-/

namespace TensorMechanics

variable {α : Type} [Semiring α]

/-- The sum of the products of pairs of factors. -/
def sumOfProducts (terms : List (α × α)) : α := (terms.map fun t => t.1 * t.2).sum

theorem sumOfProducts_take_add_drop (terms : List (α × α)) (k : Nat) :
    sumOfProducts (terms.take k) + sumOfProducts (terms.drop k) = sumOfProducts terms := by
  rw [sumOfProducts, sumOfProducts, ← List.sum_append, ← List.map_append, List.take_append_drop,
    sumOfProducts]

theorem sumOfProducts_terms {m k n : Nat} (a : ColumnMatrix α m k) (b : ColumnMatrix α k n)
    (i : Fin m) (j : Fin n) :
    sumOfProducts (a.terms b i j) = ∑ p, a.get i p * b.get p j := by
  rw [sumOfProducts, ColumnMatrix.terms, List.map_map]
  exact Fin.sum_univ_def _ |>.symm

variable [Sub α]

attribute [local instance] Scalar.exact

/-- Exact numbers add up to the sum. -/
theorem Scalar.addProducts_exact (x : α) (terms : List (α × α)) :
    Scalar.addProducts x terms = .ok (x + sumOfProducts terms) := by
  induction terms generalizing x with
  | nil => simp [Scalar.addProducts, sumOfProducts]
  | cons t terms ih =>
    show Scalar.addProducts (x + t.1 * t.2) terms = _
    rw [ih, sumOfProducts, sumOfProducts, List.map_cons, List.sum_cons, add_assoc]

namespace Product

open ColumnMatrix

/-- A complete plan adds the sum of the terms to the old entry. -/
theorem Plan.entry_exact {m k n : Nat} (plan : Plan m k n) (hplan : plan.Complete) (s : Schedule)
    (i : Fin m) (j : Fin n) (terms : List (α × α)) (hterms : terms.length = k) (x : α) :
    plan.entry s i j terms x = .ok (x + sumOfProducts terms) := by
  induction plan generalizing s terms x with
  | skip =>
    simp [hplan.terms_eq_nil i j hterms, entry, sumOfProducts]
  | leaf => exact Scalar.addProducts_exact x terms
  | rows m₁ m₂ h forked top bottom ihTop ihBottom =>
    rw [entry]
    by_cases hi : i.val < m₁
    · rw [dif_pos hi]
      exact ihTop hplan.1 _ _ j terms hterms x
    · rw [dif_neg hi]
      exact ihBottom hplan.2 _ _ j terms hterms x
  | columns n₁ n₂ h forked left right ihLeft ihRight =>
    rw [entry]
    by_cases hj : j.val < n₁
    · rw [dif_pos hj]
      exact ihLeft hplan.1 _ i _ terms hterms x
    · rw [dif_neg hj]
      exact ihRight hplan.2 _ i _ terms hterms x
  | inner k₁ k₂ h forked first second ihFirst ihSecond =>
    have hfirst : (terms.take k₁).length = k₁ := by
      rw [List.length_take]
      omega
    have hsecond : (terms.drop k₁).length = k₂ := by
      rw [List.length_drop]
      omega
    have hsum := sumOfProducts_take_add_drop terms k₁
    cases forked with
    | true =>
      rw [entry, ihFirst hplan.1 _ i j _ hfirst, ihSecond hplan.2 _ i j _ hsecond]
      cases s [] with
      | first =>
        show Except.ok (x + (0 + _) + (0 + _)) = _
        rw [zero_add, zero_add, add_assoc, hsum]
      | second =>
        show Except.ok (x + (0 + _) + (0 + _)) = _
        rw [zero_add, zero_add, add_assoc, add_comm (sumOfProducts (terms.drop k₁)), hsum]
    | false =>
      rw [entry, ihFirst hplan.1 _ i j _ hfirst, Checked.ok_bind,
        ihSecond hplan.2 _ i j _ hsecond, add_assoc, hsum]

/-- `addInto` computes `c + a * b` for every leaf size, every depth and every schedule, and leaves it
in the target. If the dimensions do not agree, it stops before it reports the product, with the
fault of the first check that fails, and the target stays as it was. -/
theorem addInto_exact (settings : Settings) (schedule : Schedule) :
    (∀ {m k n : Nat} (c : ColumnMatrix α m n) (a : ColumnMatrix α m k) (b : ColumnMatrix α k n),
      ∃ sum : ColumnMatrix α m n,
        (addInto settings schedule ⟨m, n, c⟩ ⟨m, k, a⟩ ⟨k, n, b⟩).result = .ok ⟨m, n, sum⟩ ∧
        targetAfter settings schedule ⟨m, n, c⟩ ⟨m, k, a⟩ ⟨k, n, b⟩ = some ⟨m, n, sum⟩ ∧
        ∀ i j, sum.get i j = c.get i j + ∑ p, a.get i p * b.get p j) ∧
    ∀ c a b : Sized α, ¬ Agree c a b →
      addInto settings schedule c a b =
        .fail (if a.columns = b.rows then .outputShape (c.rows, c.columns) (a.rows, b.columns)
          else .innerDimensions a.columns b.rows) ∧
      targetAfter settings schedule c a b = some c := by
  constructor
  · intro m k n c a b
    have hplan : (settings.plan m k n).Complete := Plan.complete_build _ _ m k n
    let sum := ofFn fun i j => c.get i j + ∑ p, a.get i p * b.get p j
    have hrun : (settings.plan m k n).run schedule a b c = .ok sum := by
      refine ((settings.plan m k n).entrywise_run schedule a b c).eq_ok fun i j => ?_
      rw [Plan.entry_exact _ hplan schedule i j _ (length_terms a b i j), sumOfProducts_terms,
        get_ofFn]
    have hresult : (addInto settings schedule ⟨m, n, c⟩ ⟨m, k, a⟩ ⟨k, n, b⟩).result =
        .ok ⟨m, n, sum⟩ := by
      rw [addInto_of_agree, hrun]
      rfl
    exact ⟨sum, hresult, (targetAfter_eq_some_iff settings schedule c a b).mpr hresult,
      fun i j => get_ofFn _ i j⟩
  · intro c a b h
    exact ⟨addInto_of_not_agree settings schedule h, targetAfter_of_not_agree settings schedule h⟩

/-- A row by a column with a forked inner cut whose second half comes first, and the same product
with a target that is too wide. -/
theorem addInto_exact_row_by_column :
    (∃ sum : ColumnMatrix Int 1 1,
      (addInto ⟨1, 1⟩ (fun _ => .second) ⟨1, 1, ofFn fun _ _ => (10 : Int)⟩
        ⟨1, 2, ofFn fun _ p => p + 1⟩ ⟨2, 1, ofFn fun p _ => p + 3⟩).result = .ok ⟨1, 1, sum⟩ ∧
      sum.get 0 0 = 21) ∧
    ¬ Agree (⟨1, 2, ofFn fun _ _ => (10 : Int)⟩ : Sized Int) ⟨1, 2, ofFn fun _ p => p + 1⟩
      ⟨2, 1, ofFn fun p _ => p + 3⟩ ∧
    targetAfter ⟨1, 1⟩ (fun _ => .second) (⟨1, 2, ofFn fun _ _ => (10 : Int)⟩ : Sized Int)
      ⟨1, 2, ofFn fun _ p => p + 1⟩ ⟨2, 1, ofFn fun p _ => p + 3⟩ =
        some ⟨1, 2, ofFn fun _ _ => 10⟩ := by
  have hwide : ¬ Agree (⟨1, 2, ofFn fun _ _ => (10 : Int)⟩ : Sized Int)
      ⟨1, 2, ofFn fun _ p => p + 1⟩ ⟨2, 1, ofFn fun p _ => p + 3⟩ := fun h =>
    absurd h.2.2 (by decide)
  refine ⟨?_, hwide, ((addInto_exact ⟨1, 1⟩ fun _ => .second).2 _ _ _ hwide).2⟩
  obtain ⟨sum, hsum, -, hentry⟩ := (addInto_exact ⟨1, 1⟩ fun _ => .second).1
    (ofFn fun _ _ => (10 : Int)) (ofFn fun _ (p : Fin 2) => (p : Int) + 1)
    (ofFn fun p _ => (p : Int) + 3)
  refine ⟨sum, hsum, ?_⟩
  rw [hentry 0 0]
  simp [Fin.sum_univ_two]

end Product

end TensorMechanics
