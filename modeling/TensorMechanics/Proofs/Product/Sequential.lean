import Mathlib
import TensorMechanics.Proofs.Product.Entries
import TensorMechanics.Proofs.Product.Plan

/-!
# Proofs: products without forks

With depth zero no cut of a plan is forked. Then every entry goes through the same operations as in
the direct product: its terms are added to the old entry one after the other, in the order of the
inner positions. Cuts of rows and columns only permute the work between entries. A cut of the inner
side hands the entry from the first half on to the second, which goes on where the first one
stopped. So no law of the scalars is needed, and numbers that round or overflow come out the same.
-/

namespace TensorMechanics.Product

open ColumnMatrix

variable {α : Type} [Scalar α]

/-- A plan without forks adds the terms of an entry in order, whatever its cuts are. -/
theorem Plan.entry_of_forks_eq_zero {m k n : Nat} (plan : Plan m k n) (hplan : plan.Complete)
    (hforks : plan.forks = 0) (s : Schedule) (i : Fin m) (j : Fin n) (terms : List (α × α))
    (hterms : terms.length = k) (x : α) :
    plan.entry s i j terms x = Scalar.addProducts x terms := by
  induction plan generalizing s terms x with
  | skip =>
    rw [hplan.terms_eq_nil i j hterms]
    rfl
  | leaf => rfl
  | rows m₁ m₂ h forked top bottom ihTop ihBottom =>
    simp only [forks, Nat.add_eq_zero_iff] at hforks
    rw [entry]
    by_cases hi : i.val < m₁
    · rw [dif_pos hi]
      exact ihTop hplan.1 hforks.1.2 _ _ j terms hterms x
    · rw [dif_neg hi]
      exact ihBottom hplan.2 hforks.2 _ _ j terms hterms x
  | columns n₁ n₂ h forked left right ihLeft ihRight =>
    simp only [forks, Nat.add_eq_zero_iff] at hforks
    rw [entry]
    by_cases hj : j.val < n₁
    · rw [dif_pos hj]
      exact ihLeft hplan.1 hforks.1.2 _ i _ terms hterms x
    · rw [dif_neg hj]
      exact ihRight hplan.2 hforks.2 _ i _ terms hterms x
  | inner k₁ k₂ h forked first second ihFirst ihSecond =>
    simp only [forks, Nat.add_eq_zero_iff, Bool.toNat_eq_zero] at hforks
    obtain ⟨⟨rfl, hfirst⟩, hsecond⟩ := hforks
    -- the second half goes on from the number that the first one leaves
    rw [entry, ihFirst hplan.1 hfirst _ i j _ (by rw [List.length_take]; omega)]
    have hrest : ∀ y, second.entry (s.within .second) i j (terms.drop k₁) y =
        Scalar.addProducts y (terms.drop k₁) :=
      ihSecond hplan.2 hsecond _ i j _ (by rw [List.length_drop]; omega)
    simp only [hrest]
    rw [← Scalar.addProducts_append, List.take_append_drop]

theorem Plan.entry_build_zero {m k n : Nat} (leafSize : Nat) (s : Schedule) (i : Fin m) (j : Fin n)
    {terms : List (α × α)} (hterms : terms.length = k) (x : α) :
    (build leafSize 0 m k n).entry s i j terms x = Scalar.addProducts x terms := by
  have hforks : (build leafSize 0 m k n).forks = 0 :=
    Nat.lt_one_iff.mp (forkedTo_build leafSize 0 m k n).forks_lt
  exact entry_of_forks_eq_zero _ (complete_build leafSize 0 m k n) hforks s i j terms hterms x

/-- Without forks, running a plan computes every entry by adding its terms in order. -/
theorem Plan.entrywise_run_build_zero {m k n : Nat} (leafSize : Nat) (s : Schedule)
    (a : ColumnMatrix α m k) (b : ColumnMatrix α k n) (c : ColumnMatrix α m n) :
    Entrywise ((build leafSize 0 m k n).run s a b c) fun i j =>
      Scalar.addProducts (c.get i j) (terms a b i j) :=
  (entrywise_run _ s a b c).congr fun i j =>
    entry_build_zero leafSize s i j (length_terms a b i j) (c.get i j)

theorem blocked_sameAnswer_direct (leafSize : Nat) (s : Schedule) (a b : Sized α) :
    Checked.SameAnswer (blocked ⟨leafSize, 0⟩ s a b).result (direct a b) := by
  obtain ⟨m, k, a⟩ := a
  obtain ⟨k', n, b⟩ := b
  by_cases hinner : k = k'
  · subst hinner
    rw [blocked_of_agree, direct_of_agree]
    refine Checked.SameAnswer.map _ ?_
    exact (Plan.entrywise_run_build_zero leafSize s a b _).sameAnswer (entrywise_accumulate a b _)
      fun _ _ => .of_eq rfl
  · rw [blocked_of_not_agree _ _ hinner, direct, dif_neg hinner]
    exact .of_eq rfl

/-- With depth zero, cutting a product changes nothing. Every entry of the target is the fold of
`acc + x * y` over the inner positions in order, from its old value on, and adding the product
faults exactly if one of these folds does. From a target of zeros this is the direct product: both
have the same result, or both fault. -/
theorem addInto_without_forks (leafSize : Nat) (schedule : Schedule) :
    (∀ {m k n : Nat} (c : ColumnMatrix α m n) (a : ColumnMatrix α m k) (b : ColumnMatrix α k n),
      let entry := fun i j => (List.finRange k).foldlM (fun acc p => do
        Scalar.add acc (← Scalar.mul (a.get i p) (b.get p j))) (c.get i j)
      (∀ sum : ColumnMatrix α m n,
        targetAfter ⟨leafSize, 0⟩ schedule ⟨m, n, c⟩ ⟨m, k, a⟩ ⟨k, n, b⟩ = some ⟨m, n, sum⟩ ↔
          ∀ i j, entry i j = .ok (sum.get i j)) ∧
      ((∃ fault, (addInto ⟨leafSize, 0⟩ schedule ⟨m, n, c⟩ ⟨m, k, a⟩ ⟨k, n, b⟩).result =
        .error fault) ↔ ∃ i j fault, entry i j = .error fault)) ∧
    ∀ a b : Sized α,
      (∀ product, (blocked ⟨leafSize, 0⟩ schedule a b).result = .ok product ↔
        direct a b = .ok product) ∧
      ((∃ fault, (blocked ⟨leafSize, 0⟩ schedule a b).result = .error fault) ↔
        ∃ fault, direct a b = .error fault) := by
  constructor
  · intro m k n c a b entry
    have hrun : Entrywise ((Settings.plan ⟨leafSize, 0⟩ m k n).run schedule a b c) entry :=
      (Plan.entrywise_run_build_zero leafSize schedule a b c).congr fun i j => by
        rw [Scalar.addProducts, terms, List.foldlM_map]
    refine ⟨fun sum => ?_, ?_⟩
    · rw [targetAfter_eq_some_iff, addInto_of_agree, hrun.sized_eq_ok]
    · rw [addInto_of_agree, hrun.sized_faults_iff]
  · intro a b
    have hsame := blocked_sameAnswer_direct leafSize schedule a b
    exact ⟨hsame, hsame.faults_iff⟩

end TensorMechanics.Product
