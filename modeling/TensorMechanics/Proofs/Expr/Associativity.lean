import Mathlib
import TensorMechanics.Proofs.Expr.Exact

/-!
# Proofs: contractions in a row

Three operands in a row, where the middle one has enough axes for both contractions, may be contracted
from the left or from the right. Both ways sum over the same pairs of contracted indices, and both
route every component of the result to the same axis of the same operand, although the outer node cuts
and splices an index that the inner node cuts and splices once more.
-/

namespace TensorMechanics

variable {α R : Type} {d r r₁ r₂ r₃ r₁₂ r₂₃ n m : Nat}

/-! ## The shape check -/

theorem contractionShape?_eq_ok (h : ContractionShape r₁ r₂ n r) :
    contractionShape? r₁ r₂ n r = .ok ⟨h⟩ := by
  have hpos := h.pos
  have hleft := h.le_left
  have hright := h.le_right
  have hfree := h.free
  have h₀ : ¬ n = 0 := by omega
  have h₁ : ¬ (r₁ < n ∨ r₂ < n) := by omega
  have h₂ : ¬ r₁ + r₂ = 2 * n := by omega
  rw [contractionShape?, dif_neg h₀, dif_neg h₁, dif_neg h₂, dif_pos h.rank]

theorem Expr.contraction?_eq_ok (h : ContractionShape r₁ r₂ n r) (a : Expr α d r₁)
    (b : Expr α d r₂) : a.contraction? n b r = .ok (.contraction n h a b) := by
  rw [contraction?, contractionShape?_eq_ok h]

/-! ## Where the components go -/

namespace ContractionShape

variable (hab : ContractionShape r₁ r₂ n r₁₂) (habc : ContractionShape r₁₂ r₃ m r)
  (hbc : ContractionShape r₂ r₃ m r₂₃) (habc' : ContractionShape r₁ r₂₃ n r)
  (ix : MultiIndex r) (k : MultiIndex m) (l : MultiIndex n)

include habc in
/-- The free axes of the first operand come first in the outer result, too. -/
theorem leftIndex_leftIndex (h : n + m ≤ r₂) :
    hab.leftIndex (habc.leftIndex ix k) l = habc'.leftIndex ix l := by
  have hrank := hab.rank
  have hle := hab.le_left
  have hcut : r₁ - n ≤ (ix.components.take (r₁₂ - m)).length := by
    have := habc.rank
    have := habc.le_right
    rw [List.length_take, ix.length_components]
    omega
  apply MultiIndex.ext
  show ((ix.components.take (r₁₂ - m) ++ k.components).take (r₁ - n)) ++ l.components = _
  rw [List.take_append_of_le_length hcut, List.take_take, Nat.min_eq_left (by omega)]
  rfl

/-- The middle operand is read at the first contracted index, its own free components and the second
contracted index, whichever contraction is the inner one. -/
theorem rightIndex_leftIndex (h : n + m ≤ r₂) :
    hab.rightIndex (habc.leftIndex ix k) l = hbc.leftIndex (habc'.rightIndex ix l) k := by
  have hrank := hab.rank
  have hle := hab.le_left
  have hcut : r₁ - n ≤ (ix.components.take (r₁₂ - m)).length := by
    have := habc.rank
    have := habc.le_right
    rw [List.length_take, ix.length_components]
    omega
  have hskip : l.components.length ≤ r₂ - m := by
    rw [l.length_components]
    omega
  apply MultiIndex.ext
  show l.components ++ (ix.components.take (r₁₂ - m) ++ k.components).drop (r₁ - n) =
    (l.components ++ ix.components.drop (r₁ - n)).take (r₂ - m) ++ k.components
  rw [List.drop_append_of_le_length hcut, List.take_append, List.take_of_length_le hskip,
    List.append_assoc, List.drop_take, l.length_components]
  have hcount : r₁₂ - m - (r₁ - n) = r₂ - m - n := by omega
  rw [hcount]

include hab in
/-- The free axes of the last operand come last. -/
theorem rightIndex_rightIndex (h : n + m ≤ r₂) :
    habc.rightIndex ix k = hbc.rightIndex (habc'.rightIndex ix l) k := by
  have hrank := hab.rank
  have hle := hab.le_left
  have hskip : l.components.length ≤ r₂ - m := by
    rw [l.length_components]
    omega
  apply MultiIndex.ext
  show k.components ++ ix.components.drop (r₁₂ - m) =
    k.components ++ (l.components ++ ix.components.drop (r₁ - n)).drop (r₂ - m)
  rw [List.drop_append, List.drop_of_length_le hskip, List.nil_append, List.drop_drop,
    l.length_components]
  have hcount : r₁ - n + (r₂ - m - n) = r₁₂ - m := by omega
  rw [hcount]

end ContractionShape

namespace Expr

/-- Both orders of contraction stand for the same double sum. -/
theorem formula_contraction_assoc [Semiring R] [Sub R] (val : α → R)
    (hab : ContractionShape r₁ r₂ n r₁₂) (habc : ContractionShape r₁₂ r₃ m r)
    (hbc : ContractionShape r₂ r₃ m r₂₃) (habc' : ContractionShape r₁ r₂₃ n r) (h : n + m ≤ r₂)
    (a : Expr α d r₁) (b : Expr α d r₂) (c : Expr α d r₃) (ix : MultiIndex r) :
    (contraction m habc (contraction n hab a b) c).formula val ix =
      (contraction n habc' a (contraction m hbc b c)).formula val ix := by
  simp only [formula, Finset.sum_mul, Finset.mul_sum]
  rw [Finset.sum_comm]
  refine Finset.sum_congr rfl fun l _ => Finset.sum_congr rfl fun k _ => ?_
  rw [hab.leftIndex_leftIndex habc habc' ix _ _ h, hab.rightIndex_leftIndex habc hbc habc' ix _ _ h,
    hab.rightIndex_rightIndex habc hbc habc' ix _ (.ofComponents l) h, mul_assoc]

variable [Semiring α] [Sub α]

attribute [local instance] Scalar.exact

/-- Contraction is associative where the contracted axes of the middle operand do not overlap. Both
orders pass the shape check with the same rank and have the same value at every index in bounds. -/
theorem contraction_assoc (hn : 1 ≤ n) (hm : 1 ≤ m) (h₁ : n ≤ r₁) (h₂ : n + m ≤ r₂) (h₃ : m ≤ r₃)
    (hfree : 1 ≤ r₁ + r₂ + r₃ - 2 * n - 2 * m) {a : Expr α d r₁} {b : Expr α d r₂}
    {c : Expr α d r₃} (ha : a.Addressable) (hb : b.Addressable) (hc : c.Addressable) :
    ∃ e f : Expr α d (r₁ + r₂ + r₃ - 2 * n - 2 * m),
      (do (← a.contraction? n b (r₁ + r₂ - 2 * n)).contraction? m c _) = .ok e ∧
      (do a.contraction? n (← b.contraction? m c (r₂ + r₃ - 2 * m)) _) = .ok f ∧
      ∀ ix : MultiIndex _, ix.InBounds d → ∃ x, e.evaluate ix = .ok x ∧ f.evaluate ix = .ok x := by
  have hab : ContractionShape r₁ r₂ n (r₁ + r₂ - 2 * n) := by constructor <;> omega
  have habc : ContractionShape (r₁ + r₂ - 2 * n) r₃ m (r₁ + r₂ + r₃ - 2 * n - 2 * m) := by
    constructor <;> omega
  have hbc : ContractionShape r₂ r₃ m (r₂ + r₃ - 2 * m) := by constructor <;> omega
  have habc' : ContractionShape r₁ (r₂ + r₃ - 2 * m) n (r₁ + r₂ + r₃ - 2 * n - 2 * m) := by
    constructor <;> omega
  refine ⟨.contraction m habc (.contraction n hab a b) c,
    .contraction n habc' a (.contraction m hbc b c), ?_, ?_, fun ix hix => ?_⟩
  · rw [contraction?_eq_ok hab]
    exact contraction?_eq_ok habc _ c
  · rw [contraction?_eq_ok hbc]
    exact contraction?_eq_ok habc' a _
  · have hleft : (contraction m habc (contraction n hab a b) c).Addressable := ⟨⟨ha, hb⟩, hc⟩
    have hright : (contraction n habc' a (contraction m hbc b c)).Addressable := ⟨ha, hb, hc⟩
    refine ⟨_, evaluate_eq_formula hleft hix, ?_⟩
    rw [evaluate_eq_formula hright hix, formula_contraction_assoc id hab habc hbc habc' h₂]

/-- A vector and two integer matrices. No axis of the vector and of the first matrix stays free. -/
theorem contraction_assoc_row_vector :
    ∃ a : Tensor Int 2 1, ∃ b c : Tensor Int 2 2,
      a.toList = [1, 2] ∧ b.toList = [1, 2, 3, 4] ∧ c.toList = [5, 6, 7, 8] ∧
      (tensor a).Addressable ∧ (tensor b).Addressable ∧ (tensor c).Addressable ∧
      ∃ e f : Expr Int 2 1,
        (do (← (tensor a).contraction? 1 (tensor b) 1).contraction? 1 (tensor c) 1) = .ok e ∧
        (do (tensor a).contraction? 1 (← (tensor b).contraction? 1 (tensor c) 2) 1) = .ok f ∧
        e.evaluate ⟨[1], rfl⟩ = .ok 122 ∧ f.evaluate ⟨[1], rfl⟩ = .ok 122 := by
  let a : Tensor Int 2 1 := ⟨#v[1, 2]⟩
  let b : Tensor Int 2 2 := ⟨#v[1, 2, 3, 4]⟩
  let c : Tensor Int 2 2 := ⟨#v[5, 6, 7, 8]⟩
  have ha : (tensor a).Addressable := show 2 ^ 1 < Word.limit by decide
  have hb : (tensor b).Addressable := show 2 ^ 2 < Word.limit by decide
  have hc : (tensor c).Addressable := show 2 ^ 2 < Word.limit by decide
  obtain ⟨e, f, he, hf, hvalues⟩ := contraction_assoc (n := 1) (m := 1) le_rfl le_rfl le_rfl le_rfl
    (by decide) (by decide) ha hb hc
  obtain ⟨x, hx, hy⟩ := hvalues ⟨[1], rfl⟩ (by decide)
  have hvalue : e.evaluate ⟨[1], rfl⟩ = .ok 122 := by
    obtain rfl := Except.ok.inj he
    decide
  obtain rfl := Except.ok.inj (hvalue.symm.trans hx)
  exact ⟨a, b, c, rfl, rfl, rfl, ha, hb, hc, e, f, he, hf, hx, hy⟩

end Expr

end TensorMechanics
