import Mathlib
import TensorMechanics.Proofs.ColumnMatrix
import TensorMechanics.Product

/-!
# Proofs: the calls of a run

`Plan.record` runs a plan and notes every call on the way: how many levels of cuts may still be forked,
and the target that the call finds. It computes what `Plan.run` computes, and each call that is noted
is one that it makes itself, with this target.

In a product that starts from zeros, every call that may still fork finds zeros: the blocks of a
target of zeros are zeros, and a forked cut of the inner side gives zeros to both of its halves. Only
an unforked cut of the inner side hands on what its first half has written, and below it nothing is
forked.
-/

namespace TensorMechanics.Product

open ColumnMatrix

variable {α : Type} [Scalar α]

/-- A call of a run: how many levels of cuts may still be forked, and the target on entry. -/
structure Call (α : Type) where
  /-- The number of levels of cuts that may be forked. -/
  depth : Nat
  /-- The number of rows of the target. -/
  rows : Nat
  /-- The number of columns of the target. -/
  columns : Nat
  /-- The target as the call finds it. -/
  target : ColumnMatrix α rows columns

/-- What a recorded run answers. -/
structure Recording (α : Type) (m n : Nat) where
  /-- The calls, each before those that it makes. -/
  calls : List (Call α)
  /-- What the run computes. -/
  result : Checked (ColumnMatrix α m n)

/-- Runs a plan and notes the calls that it makes, itself included. The halves of a cut of rows or
columns and of a forked cut of the inner side are both called, whether one of them faults or not. Those
of an unforked cut of the inner side are called in turn, the second one with what the first one leaves,
so it is not called after a fault. -/
def Plan.record {m k n : Nat} : Plan m k n → (depth : Nat) → Schedule → ColumnMatrix α m k →
    ColumnMatrix α k n → ColumnMatrix α m n → Recording α m n
  | .skip, depth, _, _, _, c => ⟨[⟨depth, m, n, c⟩], .ok c⟩
  | .leaf, depth, _, a, b, c => ⟨[⟨depth, m, n, c⟩], accumulate a b c⟩
  | .rows _ _ h _ top bottom, depth, s, a, b, c =>
    let upper := top.record (depth - 1) (s.within .first) (a.topRows h) b (c.topRows h)
    let lower := bottom.record (depth - 1) (s.within .second) (a.bottomRows h) b (c.bottomRows h)
    ⟨⟨depth, m, n, c⟩ :: (upper.calls ++ lower.calls),
      do return above h (← upper.result) (← lower.result)⟩
  | .columns _ _ h _ left right, depth, s, a, b, c =>
    let x := left.record (depth - 1) (s.within .first) a (b.leftColumns h) (c.leftColumns h)
    let y := right.record (depth - 1) (s.within .second) a (b.rightColumns h) (c.rightColumns h)
    ⟨⟨depth, m, n, c⟩ :: (x.calls ++ y.calls), do return beside h (← x.result) (← y.result)⟩
  | .inner _ _ h true first second, depth, s, a, b, c =>
    let zero := ColumnMatrix.replicate m n (Scalar.zero : α)
    let x := first.record (depth - 1) (s.within .first) (a.leftColumns h) (b.topRows h) zero
    let y := second.record (depth - 1) (s.within .second) (a.rightColumns h) (b.bottomRows h) zero
    ⟨⟨depth, m, n, c⟩ :: (x.calls ++ y.calls), merge (s []) x.result y.result c⟩
  | .inner _ _ h false first second, depth, s, a, b, c =>
    let x := first.record (depth - 1) (s.within .first) (a.leftColumns h) (b.topRows h) c
    match x.result with
    | .error fault => ⟨⟨depth, m, n, c⟩ :: x.calls, .error fault⟩
    | .ok c' =>
      let y := second.record (depth - 1) (s.within .second) (a.rightColumns h) (b.bottomRows h) c'
      ⟨⟨depth, m, n, c⟩ :: (x.calls ++ y.calls), y.result⟩

/-- The calls that running a plan makes, itself included. -/
def Plan.calls {m k n : Nat} (plan : Plan m k n) (depth : Nat) (s : Schedule) (a : ColumnMatrix α m k)
    (b : ColumnMatrix α k n) (c : ColumnMatrix α m n) : List (Call α) :=
  (plan.record depth s a b c).calls

/-- Recording changes nothing: a recorded run computes what the run computes. -/
theorem Plan.result_record {m k n : Nat} (plan : Plan m k n) (depth : Nat) (s : Schedule)
    (a : ColumnMatrix α m k) (b : ColumnMatrix α k n) (c : ColumnMatrix α m n) :
    (plan.record depth s a b c).result = plan.run s a b c := by
  induction plan generalizing depth s with
  | skip => rfl
  | leaf => rfl
  | rows m₁ m₂ h forked top bottom ihTop ihBottom =>
    rw [record, run, ihTop, ihBottom]
  | columns n₁ n₂ h forked left right ihLeft ihRight =>
    rw [record, run, ihLeft, ihRight]
  | inner k₁ k₂ h forked first second ihFirst ihSecond =>
    cases forked with
    | true => rw [record, run, ihFirst, ihSecond]
    | false =>
      rw [run, ← ihFirst (depth - 1)]
      simp only [record]
      split
      next fault hfault => rw [hfault]; rfl
      next d hd => rw [hd]; exact ihSecond _ _ _ _ _

/-- The first call of a run is that of the plan itself, with the target that it is given. -/
theorem Plan.head?_calls {m k n : Nat} (plan : Plan m k n) (depth : Nat) (s : Schedule)
    (a : ColumnMatrix α m k) (b : ColumnMatrix α k n) (c : ColumnMatrix α m n) :
    (plan.calls depth s a b c).head? = some ⟨depth, m, n, c⟩ := by
  cases plan with
  | skip => rfl
  | leaf => rfl
  | rows => rfl
  | columns => rfl
  | inner k₁ k₂ h forked first second =>
    cases forked with
    | true => rfl
    | false =>
      simp only [calls, record]
      split
      · rfl
      · rfl

/-- The calls of an unforked cut of the inner side: the second half finds what running the first half
leaves. -/
theorem Plan.mem_calls_inner {m k n k₁ k₂ : Nat} {h : k₁ + k₂ = k} {first : Plan m k₁ n}
    {second : Plan m k₂ n} {depth : Nat} {s : Schedule} {a : ColumnMatrix α m k} {b : ColumnMatrix α k n}
    {c : ColumnMatrix α m n} {call : Call α} :
    call ∈ (inner k₁ k₂ h false first second).calls depth s a b c ↔
      call = ⟨depth, m, n, c⟩ ∨
        call ∈ first.calls (depth - 1) (s.within .first) (a.leftColumns h) (b.topRows h) c ∨
        ∃ c', first.run (s.within .first) (a.leftColumns h) (b.topRows h) c = .ok c' ∧
          call ∈ second.calls (depth - 1) (s.within .second) (a.rightColumns h) (b.bottomRows h) c' := by
  rw [← first.result_record (depth - 1), calls, record]
  cases hfirst : (first.record (depth - 1) (s.within .first) (a.leftColumns h) (b.topRows h) c).result with
  | error fault => simp [calls]
  | ok c' => simp [calls]

/-! ## Calls that may fork -/

/-- Below a call that may not fork, no call may. -/
theorem Plan.depth_eq_zero_of_mem_calls {m k n : Nat} (plan : Plan m k n) (s : Schedule)
    (a : ColumnMatrix α m k) (b : ColumnMatrix α k n) (c : ColumnMatrix α m n) {call : Call α}
    (h : call ∈ plan.calls 0 s a b c) : call.depth = 0 := by
  induction plan generalizing s with
  | skip =>
    obtain rfl := List.mem_singleton.mp h
    rfl
  | leaf =>
    obtain rfl := List.mem_singleton.mp h
    rfl
  | rows m₁ m₂ hm forked top bottom ihTop ihBottom =>
    simp only [calls, record, List.mem_cons, List.mem_append] at h
    obtain rfl | h | h := h
    · rfl
    · exact ihTop _ _ _ _ h
    · exact ihBottom _ _ _ _ h
  | columns n₁ n₂ hn forked left right ihLeft ihRight =>
    simp only [calls, record, List.mem_cons, List.mem_append] at h
    obtain rfl | h | h := h
    · rfl
    · exact ihLeft _ _ _ _ h
    · exact ihRight _ _ _ _ h
  | inner k₁ k₂ hk forked first second ihFirst ihSecond =>
    cases forked with
    | true =>
      simp only [calls, record, List.mem_cons, List.mem_append] at h
      obtain rfl | h | h := h
      · rfl
      · exact ihFirst _ _ _ _ h
      · exact ihSecond _ _ _ _ h
    | false =>
      obtain rfl | h | ⟨c', -, h⟩ := mem_calls_inner.mp h
      · rfl
      · exact ihFirst _ _ _ _ h
      · exact ihSecond _ _ _ _ h

/-- From a target of zeros, every call that may still fork receives zeros. -/
theorem Plan.target_eq_zero_of_mem_calls (leafSize depth m k n : Nat) (s : Schedule)
    (a : ColumnMatrix α m k) (b : ColumnMatrix α k n) {call : Call α}
    (h : call ∈ (build leafSize depth m k n).calls depth s a b (.replicate m n Scalar.zero))
    (hdepth : 0 < call.depth) : call.target = .replicate call.rows call.columns Scalar.zero := by
  fun_induction build leafSize depth m k n generalizing s with
  | case1 =>
    obtain rfl := List.mem_singleton.mp h
    rfl
  | case2 =>
    obtain rfl := List.mem_singleton.mp h
    rfl
  | case3 depth m k n _ _ _ ihTop ihBottom =>
    simp only [calls, record, List.mem_cons, List.mem_append, topRows_replicate,
      bottomRows_replicate] at h
    obtain rfl | h | h := h
    · rfl
    · exact ihTop _ _ _ h
    · exact ihBottom _ _ _ h
  | case4 depth m k n _ _ _ _ ihLeft ihRight =>
    simp only [calls, record, List.mem_cons, List.mem_append, leftColumns_replicate,
      rightColumns_replicate] at h
    obtain rfl | h | h := h
    · rfl
    · exact ihLeft _ _ _ h
    · exact ihRight _ _ _ h
  | case5 depth m k n _ _ _ _ ihFirst ihSecond =>
    rcases Nat.eq_zero_or_pos depth with rfl | hd
    · -- an unforked cut hands the target on, but below it there are no forks
      have hzero := depth_eq_zero_of_mem_calls _ _ _ _ _ h
      omega
    · simp only [hd, decide_true, calls, record, List.mem_cons, List.mem_append] at h
      obtain rfl | h | h := h
      · rfl
      · exact ihFirst _ _ _ h
      · exact ihSecond _ _ _ h

end TensorMechanics.Product
