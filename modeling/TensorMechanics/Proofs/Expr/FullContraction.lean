import Mathlib
import TensorMechanics.Proofs.Expr.Associativity

/-!
# Proofs: full contractions of products

Contracting all axes of the right operand leaves the first axes of the left one: the result is read at
an index, the left operand at this index joined with the contracted components, and the right operand
at these. The outer product splits an index at the same place, and the full contraction visits every
joined index once. So contracting with a tensor is adjoint to multiplying by it on the right, and a
product contracted with a tensor is its left factor, scaled.
-/

namespace TensorMechanics

variable {α : Type} {d r s n : Nat}

/-! ## Contracting all axes of the right operand -/

namespace ContractionShape

theorem all (hn : 1 ≤ n) (hr : 1 ≤ r) (hrank : r + n = s) : ContractionShape s n n r := by
  constructor <;> omega

variable (h : ContractionShape s n n r) (ix : MultiIndex r) (k : MultiIndex n)

theorem leftIndex_all (hrank : r + n = s) : h.leftIndex ix k = .join hrank ix k := by
  have hfree : s - n = ix.components.length := by
    rw [ix.length_components]
    omega
  apply MultiIndex.ext
  show ix.components.take (s - n) ++ k.components = ix.components ++ k.components
  rw [hfree, List.take_length]

theorem rightIndex_all : h.rightIndex ix k = k := by
  have hfree : ix.components.length ≤ s - n := by
    rw [ix.length_components]
    have := h.rank
    omega
  apply MultiIndex.ext
  show k.components ++ ix.components.drop (s - n) = k.components
  rw [List.drop_of_length_le hfree, List.append_nil]

end ContractionShape

namespace Expr

theorem outer?_eq_ok (hrank : r + n = s) (u : Expr α d r) (v : Expr α d n) :
    u.outer? v s = .ok (.outer hrank u v) := by
  rw [outer?, outerShape?, dif_pos hrank]

variable [CommRing α]

theorem formula_contraction_all (h : ContractionShape s n n r) (hrank : r + n = s)
    (a : Expr α d s) (v : Expr α d n) (ix : MultiIndex r) :
    (contraction n h a v).formula id ix =
      ∑ k : Fin n → Fin d, a.formula id (.join hrank ix (.ofComponents k)) *
        v.formula id (.ofComponents k) := by
  simp only [formula, h.leftIndex_all _ _ hrank, h.rightIndex_all]

theorem formula_outer_join (hrank : r + n = s) (u : Expr α d r) (v : Expr α d n)
    (ix : MultiIndex r) (k : MultiIndex n) :
    (outer hrank u v).formula id (.join hrank ix k) = u.formula id ix * v.formula id k := by
  rw [formula, MultiIndex.split_join]

/-- The double sum over the free and the contracted components is the sum over all of them. -/
theorem sum_contraction_all (h : ContractionShape s n n r) (hrank : r + n = s) (a : Expr α d s)
    (v : Expr α d n) (w : Expr α d r) :
    ∑ i : Fin r → Fin d, (contraction n h a v).formula id (.ofComponents i) *
        w.formula id (.ofComponents i) =
      ∑ j : Fin s → Fin d, a.formula id (.ofComponents j) *
        (outer hrank w v).formula id (.ofComponents j) := by
  -- the free components come first in `a`, as the components of the left factor do in the product
  rw [MultiIndex.sum_join hrank fun jx => a.formula id jx * (outer hrank w v).formula id jx]
  refine Finset.sum_congr rfl fun i _ => ?_
  rw [formula_contraction_all h hrank, Finset.sum_mul]
  refine Finset.sum_congr rfl fun k _ => ?_
  rw [formula_outer_join, mul_right_comm, mul_assoc]

theorem formula_contraction_outer (h : ContractionShape s n n r) (hrank : r + n = s)
    (u : Expr α d r) (v w : Expr α d n) (ix : MultiIndex r) :
    (contraction n h (outer hrank u v) w).formula id ix =
      u.formula id ix *
        ∑ k : Fin n → Fin d, v.formula id (.ofComponents k) * w.formula id (.ofComponents k) := by
  rw [formula_contraction_all h hrank, Finset.mul_sum]
  refine Finset.sum_congr rfl fun k _ => ?_
  rw [formula_outer_join, mul_assoc]

attribute [local instance] Scalar.exact

/-- Contracting with `v` is adjoint to multiplying by `v` on the right, and contracting a product with
`w` scales its left factor by the full contraction of the right one. The indices of rank `s` in the
first law and of rank `n` in the second have to be countable, which they are if `a` and `v` are
addressable tensors; otherwise that full contraction faults. -/
theorem contraction_outer_contractFull (hn : 1 ≤ n) (hr : 1 ≤ r) (hrank : r + n = s) :
    (∀ {a : Expr α d s} {v : Expr α d n} {w : Expr α d r},
      a.Addressable → v.Addressable → w.Addressable →
      ∃ (av : Expr α d r) (wv : Expr α d s),
        a.contraction? n v r = .ok av ∧ w.outer? v s = .ok wv ∧
        (d ^ s < Word.limit → ∃ x, av.contractFull w = .ok x ∧ a.contractFull wv = .ok x) ∧
        (Word.limit ≤ d ^ s → a.contractFull wv = .error (.overflow .multiplication))) ∧
    ∀ {u : Expr α d r} {v w : Expr α d n},
      u.Addressable → v.Addressable → w.Addressable →
      ∃ (uv : Expr α d s) (uvw : Expr α d r),
        u.outer? v s = .ok uv ∧ uv.contraction? n w r = .ok uvw ∧
        (d ^ n < Word.limit → ∃ c, v.contractFull w = .ok c ∧
          ∀ ix : MultiIndex r, ix.InBounds d →
            ∃ x, uvw.evaluate ix = .ok x ∧ (u.scaled c).evaluate ix = .ok x) ∧
        (Word.limit ≤ d ^ n → v.contractFull w = .error (.overflow .multiplication)) := by
  have h : ContractionShape s n n r := .all hn hr hrank
  constructor
  · intro a v w ha hv hw
    refine ⟨.contraction n h a v, .outer hrank w v, contraction?_eq_ok h a v, outer?_eq_ok hrank w v,
      fun hlen => ?_, fun hlen => contractFull_of_le _ _ hlen⟩
    have hlen' : d ^ r < Word.limit := MultiIndex.pow_lt_limit hlen (by omega)
    have hav : (contraction n h a v).Addressable := ⟨ha, hv⟩
    have hwv : (outer hrank w v).Addressable := ⟨hw, hv⟩
    refine ⟨_, contractFull_eq_sum hav hw hlen', ?_⟩
    rw [contractFull_eq_sum ha hwv hlen, sum_contraction_all h hrank]
  · intro u v w hu hv hw
    let c := ∑ k : Fin n → Fin d, v.formula id (.ofComponents k) * w.formula id (.ofComponents k)
    refine ⟨.outer hrank u v, .contraction n h (.outer hrank u v) w, outer?_eq_ok hrank u v,
      contraction?_eq_ok h _ w, fun hlen => ⟨c, contractFull_eq_sum hv hw hlen, fun ix hix => ?_⟩,
      fun hlen => contractFull_of_le v w hlen⟩
    have huvw : (contraction n h (outer hrank u v) w).Addressable := ⟨⟨hu, hv⟩, hw⟩
    have huc : (u.scaled c).Addressable := hu
    refine ⟨_, evaluate_eq_formula huvw hix, ?_⟩
    rw [evaluate_eq_formula huc hix, formula_contraction_outer h hrank, formula, id]

/-- A matrix and two vectors of integers; the left factor of the product in the second law is `w`. -/
theorem contraction_outer_contractFull_vectors :
    ∃ a : Tensor Int 2 2, ∃ v w : Tensor Int 2 1,
      a.toList = [1, 2, 3, 4] ∧ v.toList = [5, 6] ∧ w.toList = [7, 8] ∧
      (tensor a).Addressable ∧ (tensor v).Addressable ∧ (tensor w).Addressable ∧
      ∃ (av wvw : Expr Int 2 1) (wv : Expr Int 2 2),
        (tensor a).contraction? 1 (tensor v) 1 = .ok av ∧ (tensor w).outer? (tensor v) 2 = .ok wv ∧
        wv.contraction? 1 (tensor w) 1 = .ok wvw ∧
        av.contractFull (tensor w) = .ok 431 ∧ (tensor a).contractFull wv = .ok 431 ∧
        (tensor v).contractFull (tensor w) = .ok 83 ∧
        wvw.evaluate ⟨[1], rfl⟩ = .ok (8 * 83) := by
  let a : Tensor Int 2 2 := ⟨#v[1, 2, 3, 4]⟩
  let v : Tensor Int 2 1 := ⟨#v[5, 6]⟩
  let w : Tensor Int 2 1 := ⟨#v[7, 8]⟩
  have ha : (tensor a).Addressable := show 2 ^ 2 < Word.limit by decide
  have hv : (tensor v).Addressable := show 2 ^ 1 < Word.limit by decide
  have hw : (tensor w).Addressable := show 2 ^ 1 < Word.limit by decide
  have hlaws := contraction_outer_contractFull (α := Int) (d := 2) (n := 1) (r := 1) (s := 2) le_rfl
    le_rfl rfl
  obtain ⟨av, wv, hav, hwv, hadjoint, -⟩ := hlaws.1 ha hv hw
  obtain ⟨uv, wvw, huv, hwvw, hscaled, -⟩ := hlaws.2 hw hv hw
  obtain rfl : uv = wv := Except.ok.inj (huv.symm.trans hwv)
  obtain ⟨x, hx, hx'⟩ := hadjoint (by decide)
  obtain ⟨c, hc, hvalues⟩ := hscaled (by decide)
  obtain ⟨y, hy, hy'⟩ := hvalues ⟨[1], rfl⟩ (by decide)
  have hproduct : (tensor a).contractFull uv = .ok 431 := by
    obtain rfl := Except.ok.inj hwv
    decide
  obtain rfl : x = 431 := Except.ok.inj (hx'.symm.trans hproduct)
  obtain rfl : c = 83 := Except.ok.inj (hc.symm.trans (by decide))
  obtain rfl : y = 8 * 83 := Except.ok.inj (hy'.symm.trans (by decide))
  exact ⟨a, v, w, rfl, rfl, rfl, ha, hv, hw, av, wvw, uv, hav, hwv, hwvw, hx, hx', hc, hy⟩

end Expr

end TensorMechanics
