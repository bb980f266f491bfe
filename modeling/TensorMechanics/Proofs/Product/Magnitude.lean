import Mathlib
import TensorMechanics.Proofs.Product.Exact
import TensorMechanics.Scalar.Bounded

/-!
# Proofs: products of bounded integers

Different depths and schedules form different partial sums of the terms of an entry. All of them are
sums over some of the terms, with or without the old entry, so none of them is larger in absolute value
than the old entry and all terms together. If these absolute values add up to a member of the range,
nothing on the way overflows, and every plan leaves the exact integer.
-/

namespace TensorMechanics

variable {range : IntRange}

/-! ## Sums through a view -/

/-- The sum of the products of pairs of factors, both seen through a view. -/
def sumThrough {α β : Type} [Semiring β] (view : α → β) (terms : List (α × α)) : β :=
  sumOfProducts (terms.map (Prod.map view view))

section View

variable {α β : Type} [Semiring β] (view : α → β)

theorem sumThrough_take_add_drop (terms : List (α × α)) (k : Nat) :
    sumThrough view (terms.take k) + sumThrough view (terms.drop k) = sumThrough view terms := by
  rw [sumThrough, sumThrough, List.map_take, List.map_drop, sumOfProducts_take_add_drop, sumThrough]

theorem sumThrough_terms {m k n : Nat} (a : ColumnMatrix α m k) (b : ColumnMatrix α k n) (i : Fin m)
    (j : Fin n) : sumThrough view (a.terms b i j) = ∑ p, view (a.get i p) * view (b.get p j) := by
  rw [sumThrough, sumOfProducts, ColumnMatrix.terms, List.map_map, List.map_map]
  exact Fin.sum_univ_def _ |>.symm

end View

namespace Bounded

/-- The exact sum of the products of pairs of factors. -/
def exactSum (terms : List (Bounded range × Bounded range)) : Int := sumThrough val terms

/-- The sum of the absolute values of the products of pairs of factors. -/
def absSum (terms : List (Bounded range × Bounded range)) : Int := sumThrough (|·.val|) terms

@[simp] theorem exactSum_cons (t : Bounded range × Bounded range)
    (terms : List (Bounded range × Bounded range)) :
    exactSum (t :: terms) = t.1.val * t.2.val + exactSum terms := rfl

@[simp] theorem absSum_cons (t : Bounded range × Bounded range)
    (terms : List (Bounded range × Bounded range)) :
    absSum (t :: terms) = |t.1.val| * |t.2.val| + absSum terms := rfl

theorem abs_exactSum_le (terms : List (Bounded range × Bounded range)) :
    |exactSum terms| ≤ absSum terms := by
  induction terms with
  | nil => exact le_rfl
  | cons t terms ih =>
    calc |t.1.val * t.2.val + exactSum terms|
        ≤ |t.1.val * t.2.val| + |exactSum terms| := abs_add_le _ _
      _ ≤ |t.1.val| * |t.2.val| + absSum terms := add_le_add (abs_mul _ _).le ih

theorem absSum_nonneg (terms : List (Bounded range × Bounded range)) : 0 ≤ absSum terms :=
  (abs_nonneg _).trans (abs_exactSum_le terms)

/-! ## Single operations -/

/-- In a range that holds the negatives of its members, an operation answers if its exact result is not
larger than the greatest member. -/
theorem exists_result_of_abs_le (hrange : range.lo ≤ -range.hi) {operation : Operation} {n : Int}
    (h : |n| ≤ range.hi) : ∃ z : Bounded range, result operation n = .ok z ∧ z.val = n := by
  obtain ⟨hlo, hhi⟩ := abs_le.mp h
  exact ⟨_, result_of_mem (hrange.trans hlo) hhi, rfl⟩

variable {x y : Bounded range}

theorem exists_add_of_abs_le (hrange : range.lo ≤ -range.hi) (h : |x.val + y.val| ≤ range.hi) :
    ∃ z, Scalar.add x y = .ok z ∧ z.val = x.val + y.val :=
  exists_result_of_abs_le hrange h

theorem exists_mul_of_abs_le (hrange : range.lo ≤ -range.hi) (h : |x.val * y.val| ≤ range.hi) :
    ∃ z, Scalar.mul x y = .ok z ∧ z.val = x.val * y.val :=
  exists_result_of_abs_le hrange h

/-! ## Adding terms -/

/-- Adding the terms one after the other does not overflow if all absolute values together fit. -/
theorem exists_addProducts (hrange : range.lo ≤ -range.hi) (terms : List (Bounded range × Bounded range))
    (x : Bounded range) (h : |x.val| + absSum terms ≤ range.hi) :
    ∃ y, Scalar.addProducts x terms = .ok y ∧ y.val = x.val + exactSum terms := by
  induction terms generalizing x with
  | nil => exact ⟨x, rfl, (add_zero _).symm⟩
  | cons t terms ih =>
    have hrest := absSum_nonneg terms
    have hx := abs_nonneg x.val
    have hterm : |t.1.val * t.2.val| = |t.1.val| * |t.2.val| := abs_mul _ _
    have hsum := abs_add_le x.val (t.1.val * t.2.val)
    rw [absSum_cons, ← hterm] at h
    obtain ⟨product, hproduct, hvalue⟩ := exists_mul_of_abs_le (x := t.1) (y := t.2) hrange (by omega)
    rw [← hvalue] at hsum h
    obtain ⟨acc, hacc, haccValue⟩ := exists_add_of_abs_le (x := x) (y := product) hrange (by omega)
    obtain ⟨y, hy, hyValue⟩ := ih acc (by rw [haccValue]; omega)
    refine ⟨y, ?_, ?_⟩
    · rw [Scalar.addProducts, List.foldlM_cons, hproduct, Checked.ok_bind, hacc, Checked.ok_bind]
      exact hy
    · rw [hyValue, haccValue, hvalue, exactSum_cons, add_assoc]

end Bounded

namespace Product

open ColumnMatrix Bounded

/-- Two tasks add their results in either order, if everything together fits. -/
theorem Half.exists_addBoth (hrange : range.lo ≤ -range.hi) (earlier : Half) {x y z : Bounded range}
    (h : |x.val| + |y.val| + |z.val| ≤ range.hi) :
    ∃ w, earlier.addBoth x y z = .ok w ∧ w.val = x.val + (y.val + z.val) := by
  have hx := abs_nonneg x.val
  have hy := abs_nonneg y.val
  have hz := abs_nonneg z.val
  have hxy := abs_add_le x.val y.val
  have hxz := abs_add_le x.val z.val
  have hall := abs_add_three x.val y.val z.val
  cases earlier with
  | first =>
    obtain ⟨u, hu, huValue⟩ := exists_add_of_abs_le (x := x) (y := y) hrange (by omega)
    obtain ⟨w, hw, hwValue⟩ := exists_add_of_abs_le (x := u) (y := z) hrange (by rw [huValue]; omega)
    refine ⟨w, ?_, by rw [hwValue, huValue, add_assoc]⟩
    rw [addBoth, hu, Checked.ok_bind, hw]
  | second =>
    obtain ⟨u, hu, huValue⟩ := exists_add_of_abs_le (x := x) (y := z) hrange (by omega)
    obtain ⟨w, hw, hwValue⟩ := exists_add_of_abs_le (x := u) (y := y) hrange
      (by rw [huValue, add_right_comm]; omega)
    refine ⟨w, ?_, by rw [hwValue, huValue, add_right_comm, add_assoc]⟩
    rw [addBoth, hu, Checked.ok_bind, hw]

/-- A complete plan computes an entry exactly, if the absolute values of the old entry and of all terms
together fit. A half of a cut adds only its own terms, so it stays within the same bound. -/
theorem Plan.exists_entry (hrange : range.lo ≤ -range.hi) {m k n : Nat} (plan : Plan m k n)
    (hplan : plan.Complete) (s : Schedule) (i : Fin m) (j : Fin n)
    (terms : List (Bounded range × Bounded range)) (hterms : terms.length = k) (x : Bounded range)
    (h : |x.val| + absSum terms ≤ range.hi) :
    ∃ y, plan.entry s i j terms x = .ok y ∧ y.val = x.val + exactSum terms := by
  induction plan generalizing s terms x with
  | skip =>
    rw [hplan.terms_eq_nil i j hterms]
    exact ⟨x, rfl, (add_zero _).symm⟩
  | leaf => exact exists_addProducts hrange terms x h
  | rows m₁ m₂ hm forked top bottom ihTop ihBottom =>
    rw [entry]
    by_cases hi : i.val < m₁
    · rw [dif_pos hi]
      exact ihTop hplan.1 _ _ j terms hterms x h
    · rw [dif_neg hi]
      exact ihBottom hplan.2 _ _ j terms hterms x h
  | columns n₁ n₂ hn forked left right ihLeft ihRight =>
    rw [entry]
    by_cases hj : j.val < n₁
    · rw [dif_pos hj]
      exact ihLeft hplan.1 _ i _ terms hterms x h
    · rw [dif_neg hj]
      exact ihRight hplan.2 _ i _ terms hterms x h
  | inner k₁ k₂ hk forked first second ihFirst ihSecond =>
    have hfirst : (terms.take k₁).length = k₁ := by
      rw [List.length_take]
      omega
    have hsecond : (terms.drop k₁).length = k₂ := by
      rw [List.length_drop]
      omega
    have hexact : exactSum (terms.take k₁) + exactSum (terms.drop k₁) = exactSum terms :=
      sumThrough_take_add_drop val terms k₁
    have habs : absSum (terms.take k₁) + absSum (terms.drop k₁) = absSum terms :=
      sumThrough_take_add_drop (|·.val|) terms k₁
    have hx := abs_nonneg x.val
    have hfirstNonneg := absSum_nonneg (terms.take k₁)
    have hsecondNonneg := absSum_nonneg (terms.drop k₁)
    have hfirstLe := abs_exactSum_le (terms.take k₁)
    have hsecondLe := abs_exactSum_le (terms.drop k₁)
    cases forked with
    | true =>
      -- both halves start from zero, so they stay within the bound without the old entry
      have hzero : |(Scalar.zero : Bounded range).val| = 0 := abs_zero
      obtain ⟨y, hy, hyValue⟩ := ihFirst hplan.1 (s.within .first) i j _ hfirst Scalar.zero
        (by omega)
      obtain ⟨z, hz, hzValue⟩ := ihSecond hplan.2 (s.within .second) i j _ hsecond Scalar.zero
        (by omega)
      have hyExact : y.val = exactSum (terms.take k₁) := hyValue.trans (zero_add _)
      have hzExact : z.val = exactSum (terms.drop k₁) := hzValue.trans (zero_add _)
      obtain ⟨w, hw, hwValue⟩ := (s []).exists_addBoth (x := x) (y := y) (z := z) hrange
        (by rw [hyExact, hzExact]; omega)
      refine ⟨w, ?_, by rw [hwValue, hyExact, hzExact, hexact]⟩
      rw [entry, hy, Checked.ok_bind, hz, Checked.ok_bind, hw]
    | false =>
      have hstep := abs_add_le x.val (exactSum (terms.take k₁))
      obtain ⟨y, hy, hyValue⟩ := ihFirst hplan.1 (s.within .first) i j _ hfirst x (by omega)
      obtain ⟨z, hz, hzValue⟩ := ihSecond hplan.2 (s.within .second) i j _ hsecond y
        (by rw [hyValue]; omega)
      refine ⟨z, ?_, by rw [hzValue, hyValue, add_assoc, hexact]⟩
      rw [entry, hy, Checked.ok_bind, hz]

/-! ## Matrices -/

/-- The old entry and the terms of every entry of the product fit together, in absolute value. -/
def Fits {m k n : Nat} (c : ColumnMatrix (Bounded range) m n) (a : ColumnMatrix (Bounded range) m k)
    (b : ColumnMatrix (Bounded range) k n) : Prop :=
  ∀ i j, |(c.get i j).val| + ∑ p, |(a.get i p).val| * |(b.get p j).val| ≤ range.hi

variable {m k n : Nat} {c : ColumnMatrix (Bounded range) m n} {a : ColumnMatrix (Bounded range) m k}
  {b : ColumnMatrix (Bounded range) k n}

/-- A computation whose entries are all exact sums answers with the exact matrix. -/
theorem Entrywise.exists_exact {x : Checked (ColumnMatrix (Bounded range) m n)}
    {f : Fin m → Fin n → Checked (Bounded range)} (hx : Entrywise x f)
    (h : ∀ i j, ∃ y, f i j = .ok y ∧ y.val = (c.get i j).val + exactSum (terms a b i j)) :
    ∃ sum, x = .ok sum ∧
      ∀ i j, (sum.get i j).val = (c.get i j).val + ∑ p, (a.get i p).val * (b.get p j).val := by
  choose y hy hvalue using h
  refine ⟨ofFn y, hx.eq_ok fun i j => by rw [get_ofFn, hy i j], fun i j => ?_⟩
  rw [get_ofFn, hvalue i j, exactSum, sumThrough_terms]

theorem Fits.exists_run (hrange : range.lo ≤ -range.hi) (h : Fits c a b) (settings : Settings)
    (schedule : Schedule) :
    ∃ sum, (settings.plan m k n).run schedule a b c = .ok sum ∧
      ∀ i j, (sum.get i j).val = (c.get i j).val + ∑ p, (a.get i p).val * (b.get p j).val := by
  refine ((settings.plan m k n).entrywise_run schedule a b c).exists_exact fun i j => ?_
  refine Plan.exists_entry hrange _ (Plan.complete_build _ _ m k n) schedule i j _
    (length_terms a b i j) _ ?_
  rw [absSum, sumThrough_terms]
  exact h i j

theorem Fits.exists_accumulate (hrange : range.lo ≤ -range.hi) (h : Fits c a b) :
    ∃ sum, accumulate a b c = .ok sum ∧
      ∀ i j, (sum.get i j).val = (c.get i j).val + ∑ p, (a.get i p).val * (b.get p j).val := by
  refine (entrywise_accumulate a b c).exists_exact fun i j => ?_
  refine exists_addProducts hrange _ _ ?_
  rw [absSum, sumThrough_terms]
  exact h i j

/-- Products of bounded integers do not overflow if the absolute values fit, in a range that holds the
negatives of its members. Then for every leaf size, every depth and every schedule, adding the product of
`a` and `b` to `c` leaves the exact integers `c + a * b` in the target. From a target of zeros, the
product in blocks and the direct product both answer with `a * b`. -/
theorem addInto_of_fits (hrange : range.lo ≤ -range.hi) (settings : Settings) (schedule : Schedule)
    {m k n : Nat} :
    (∀ (c : ColumnMatrix (Bounded range) m n) (a : ColumnMatrix (Bounded range) m k)
      (b : ColumnMatrix (Bounded range) k n), Fits c a b →
      ∃ sum : ColumnMatrix (Bounded range) m n,
        (addInto settings schedule ⟨m, n, c⟩ ⟨m, k, a⟩ ⟨k, n, b⟩).result = .ok ⟨m, n, sum⟩ ∧
        targetAfter settings schedule ⟨m, n, c⟩ ⟨m, k, a⟩ ⟨k, n, b⟩ = some ⟨m, n, sum⟩ ∧
        ∀ i j, (sum.get i j).val = (c.get i j).val + ∑ p, (a.get i p).val * (b.get p j).val) ∧
    ∀ (a : ColumnMatrix (Bounded range) m k) (b : ColumnMatrix (Bounded range) k n),
      Fits (.replicate m n Scalar.zero) a b →
      ∃ product : ColumnMatrix (Bounded range) m n,
        (blocked settings schedule ⟨m, k, a⟩ ⟨k, n, b⟩).result = .ok ⟨m, n, product⟩ ∧
        direct ⟨m, k, a⟩ ⟨k, n, b⟩ = .ok ⟨m, n, product⟩ ∧
        ∀ i j, (product.get i j).val = ∑ p, (a.get i p).val * (b.get p j).val := by
  constructor
  · intro c a b hfits
    obtain ⟨sum, hrun, hvalue⟩ := hfits.exists_run hrange settings schedule
    have hresult : (addInto settings schedule ⟨m, n, c⟩ ⟨m, k, a⟩ ⟨k, n, b⟩).result =
        .ok ⟨m, n, sum⟩ := by
      rw [addInto_of_agree, hrun]
      rfl
    exact ⟨sum, hresult, (targetAfter_eq_some_iff settings schedule c a b).mpr hresult, hvalue⟩
  · intro a b hfits
    obtain ⟨product, hrun, hvalue⟩ := hfits.exists_run hrange settings schedule
    obtain ⟨product', haccumulate, hvalue'⟩ := hfits.exists_accumulate hrange
    -- both are exact, so they are the same
    obtain rfl : product = product' := ext_get fun i j => Bounded.ext (by rw [hvalue, hvalue'])
    refine ⟨product, ?_, ?_, fun i j => ?_⟩
    · rw [blocked_of_agree, hrun]
      rfl
    · rw [direct_of_agree, haccumulate]
      rfl
    · rw [hvalue, get_replicate]
      exact zero_add _

/-- A row by a column of numbers of 32 bits whose absolute values add up to the greatest number, with a
forked inner cut whose second half comes first. -/
theorem addInto_of_fits_signed32 :
    IntRange.signed32.lo ≤ -IntRange.signed32.hi ∧
    ∃ (c : ColumnMatrix (Bounded .signed32) 1 1) (a : ColumnMatrix (Bounded .signed32) 1 2)
      (b : ColumnMatrix (Bounded .signed32) 2 1) (sum : ColumnMatrix (Bounded .signed32) 1 1),
      c.toList.map Bounded.val = [65534] ∧ a.toList.map Bounded.val = [32768, -32767] ∧
      b.toList.map Bounded.val = [32768, 32767] ∧ Fits c a b ∧
      Fits (.replicate 1 1 Scalar.zero) a b ∧
      (addInto ⟨1, 1⟩ (fun _ => .second) ⟨1, 1, c⟩ ⟨1, 2, a⟩ ⟨2, 1, b⟩).result = .ok ⟨1, 1, sum⟩ ∧
      (sum.get 0 0).val = 131069 ∧
      ∃ product : ColumnMatrix (Bounded .signed32) 1 1,
        (blocked ⟨1, 1⟩ (fun _ => .second) ⟨1, 2, a⟩ ⟨2, 1, b⟩).result = .ok ⟨1, 1, product⟩ ∧
        direct ⟨1, 2, a⟩ ⟨2, 1, b⟩ = .ok ⟨1, 1, product⟩ ∧ (product.get 0 0).val = 65535 := by
  let c : ColumnMatrix (Bounded .signed32) 1 1 := ⟨#v[⟨65534, by decide, by decide⟩]⟩
  let a : ColumnMatrix (Bounded .signed32) 1 2 :=
    ⟨#v[⟨32768, by decide, by decide⟩, ⟨-32767, by decide, by decide⟩]⟩
  let b : ColumnMatrix (Bounded .signed32) 2 1 :=
    ⟨#v[⟨32768, by decide, by decide⟩, ⟨32767, by decide, by decide⟩]⟩
  have hrange : IntRange.signed32.lo ≤ -IntRange.signed32.hi := by decide
  have hfits : Fits c a b := by
    unfold Fits
    decide +kernel
  have hzero : Fits (.replicate 1 1 Scalar.zero) a b := by
    unfold Fits
    decide +kernel
  have hall := addInto_of_fits hrange ⟨1, 1⟩ (fun _ => .second) (m := 1) (k := 2) (n := 1)
  obtain ⟨sum, hsum, -, hvalue⟩ := hall.1 c a b hfits
  obtain ⟨product, hproduct, hdirect, hvalue'⟩ := hall.2 a b hzero
  refine ⟨hrange, c, a, b, sum, rfl, rfl, rfl, hfits, hzero, hsum, ?_, product, hproduct, hdirect, ?_⟩
  · rw [hvalue]
    decide +kernel
  · rw [hvalue']
    decide +kernel

end Product

end TensorMechanics
