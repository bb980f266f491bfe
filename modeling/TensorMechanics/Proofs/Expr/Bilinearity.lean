import Mathlib
import TensorMechanics.Proofs.Expr.Exact

/-!
# Proofs: products are bilinear

An entry of a contraction is a sum of products of a value of the left operand and a value of the right
one. So is an entry of an outer product, with one term, and a full contraction. Where each operand is
read does not depend on what is read there. Over a commutative ring every such sum is linear in either
operand: it distributes over sums and differences of expressions and commutes with scaling them.
-/

namespace TensorMechanics.Expr

variable {α : Type} [CommRing α] {d r r₁ r₂ : Nat}

attribute [local instance] Scalar.exact

/-- A computation on an expression that is linear in it, and answers. -/
structure Linear (f : Expr α d r → Checked α) : Prop where
  sum {u v : Expr α d r} (hu : u.Addressable) (hv : v.Addressable) :
    ∃ x y, f u = .ok x ∧ f v = .ok y ∧ f (.sum u v) = .ok (x + y)
  difference {u v : Expr α d r} (hu : u.Addressable) (hv : v.Addressable) :
    ∃ x y, f u = .ok x ∧ f v = .ok y ∧ f (.difference u v) = .ok (x - y)
  scaled {u : Expr α d r} (hu : u.Addressable) (alpha : α) :
    ∃ x, f u = .ok x ∧ f (.scaled u alpha) = .ok (x * alpha)

/-- A product of two expressions that is linear in the left one and in the right one. -/
structure Bilinear (product : Expr α d r₁ → Expr α d r₂ → Checked α) : Prop where
  left {v : Expr α d r₂} (hv : v.Addressable) : Linear fun u => product u v
  right {u : Expr α d r₁} (hu : u.Addressable) : Linear fun v => product u v

/-- A weighted sum of values of an expression is linear in it. -/
theorem Linear.of_sum {ι : Type} [Fintype ι] {f : Expr α d r → Checked α} {index : ι → MultiIndex r}
    {weight : ι → α}
    (h : ∀ u : Expr α d r, u.Addressable → f u = .ok (∑ k, u.formula id (index k) * weight k)) :
    Linear f where
  sum {u v} hu hv := by
    refine ⟨_, _, h u hu, h v hv, ?_⟩
    rw [h (.sum u v) ⟨hu, hv⟩, ← Finset.sum_add_distrib]
    simp only [formula, add_mul]
  difference {u v} hu hv := by
    refine ⟨_, _, h u hu, h v hv, ?_⟩
    rw [h (.difference u v) ⟨hu, hv⟩, ← Finset.sum_sub_distrib]
    simp only [formula, sub_mul]
  scaled {u} hu alpha := by
    refine ⟨_, h u hu, ?_⟩
    rw [h (.scaled u alpha) hu, Finset.sum_mul]
    simp only [formula, id, mul_right_comm]

/-- A sum of products of values of two expressions is linear in both. -/
theorem Bilinear.of_sum {ι : Type} [Fintype ι] {product : Expr α d r₁ → Expr α d r₂ → Checked α}
    {left : ι → MultiIndex r₁} {right : ι → MultiIndex r₂}
    (h : ∀ u v, u.Addressable → v.Addressable →
      product u v = .ok (∑ k, u.formula id (left k) * v.formula id (right k))) :
    Bilinear product where
  left {v} hv := .of_sum fun u hu => h u v hu hv
  right {u} hu := .of_sum fun v hv => by
    rw [h u v hu hv]
    simp only [mul_comm (u.formula id _)]
    rfl

/-- Contractions, outer products and full contractions are bilinear, the first two at every index in
bounds. If the indices are too many to be counted, every full contraction faults. -/
theorem products_bilinear (d : Nat) :
    (∀ {r₁ r₂ n r : Nat} (h : ContractionShape r₁ r₂ n r) {ix : MultiIndex r}, ix.InBounds d →
      Bilinear fun (u : Expr α d r₁) (v : Expr α d r₂) => (contraction n h u v).evaluate ix) ∧
    (∀ {r₁ r₂ r : Nat} (h : r₁ + r₂ = r) {ix : MultiIndex r}, ix.InBounds d →
      Bilinear fun (u : Expr α d r₁) (v : Expr α d r₂) => (outer h u v).evaluate ix) ∧
    ∀ r : Nat, (d ^ r < Word.limit → Bilinear fun u v : Expr α d r => u.contractFull v) ∧
      (Word.limit ≤ d ^ r →
        ∀ u v : Expr α d r, u.contractFull v = .error (.overflow .multiplication)) := by
  refine ⟨fun {_ _ n _} h {ix} hix => ?_, fun {_ _ _} h {ix} hix => ?_, fun r => ⟨fun hlen => ?_,
    fun hlen u v => contractFull_of_le u v hlen⟩⟩
  · have hvalue : ∀ (u : Expr α d _) (v : Expr α d _), u.Addressable → v.Addressable →
        (contraction n h u v).evaluate ix = .ok (∑ k : Fin n → Fin d,
          u.formula id (h.leftIndex ix (.ofComponents k)) *
            v.formula id (h.rightIndex ix (.ofComponents k))) := by
      intro u v hu hv
      exact evaluate_eq_formula (e := contraction n h u v) ⟨hu, hv⟩ hix
    exact .of_sum hvalue
  · -- an outer product has a single term, so its sum is over one choice
    have hvalue : ∀ (u : Expr α d _) (v : Expr α d _), u.Addressable → v.Addressable →
        (outer h u v).evaluate ix =
          .ok (∑ _k : Unit, u.formula id (ix.split h).1 * v.formula id (ix.split h).2) := by
      intro u v hu hv
      rw [evaluate_eq_formula (e := outer h u v) ⟨hu, hv⟩ hix, Fintype.sum_unique, formula]
    exact .of_sum hvalue
  · exact .of_sum fun u v hu hv => contractFull_eq_sum hu hv hlen

/-- A sum of two matrices times a vector, a scaled matrix in an outer product and a difference of both
matrices in a full contraction. There are too many indices of rank 64, even in dimension two. -/
theorem products_bilinear_matrices :
    ∃ a b : Tensor Int 2 2, ∃ v : Tensor Int 2 1,
      a.toList = [1, 2, 3, 4] ∧ b.toList = [5, 6, 7, 8] ∧ v.toList = [1, 2] ∧
      (tensor a).Addressable ∧ (tensor b).Addressable ∧ (tensor v).Addressable ∧
      (∃ h : ContractionShape 2 1 1 1,
        (contraction 1 h (.sum (tensor a) (tensor b)) (tensor v)).evaluate ⟨[1], rfl⟩ =
          .ok (11 + 23)) ∧
      (∃ h : 2 + 1 = 3,
        (outer h (.scaled (tensor a) 3) (tensor v)).evaluate ⟨[1, 0, 1], rfl⟩ = .ok (6 * 3)) ∧
      (tensor a).contractFull (.difference (tensor b) (tensor a)) = .ok (70 - 30) ∧
      ∀ u v : Expr Int 2 64, u.contractFull v = .error (.overflow .multiplication) := by
  let a : Tensor Int 2 2 := ⟨#v[1, 2, 3, 4]⟩
  let b : Tensor Int 2 2 := ⟨#v[5, 6, 7, 8]⟩
  let v : Tensor Int 2 1 := ⟨#v[1, 2]⟩
  have ha : (tensor a).Addressable := show 2 ^ 2 < Word.limit by decide
  have hb : (tensor b).Addressable := show 2 ^ 2 < Word.limit by decide
  have hv : (tensor v).Addressable := show 2 ^ 1 < Word.limit by decide
  have hshape : ContractionShape 2 1 1 1 := by constructor <;> decide
  obtain ⟨hcontraction, houter, hfull⟩ := products_bilinear (α := Int) 2
  have hrow : (⟨[1], rfl⟩ : MultiIndex 1).InBounds 2 := by decide
  have hentry : (⟨[1, 0, 1], rfl⟩ : MultiIndex 3).InBounds 2 := by decide
  obtain ⟨x, y, hx, hy, hsum⟩ := ((hcontraction hshape hrow).left hv).sum ha hb
  obtain ⟨z, hz, hscaled⟩ := ((houter rfl hentry).left hv).scaled ha 3
  obtain ⟨p, q, hp, hq, hdifference⟩ := (((hfull 2).1 (by decide)).right ha).difference hb ha
  obtain rfl : x = 11 := Except.ok.inj (hx.symm.trans rfl)
  obtain rfl : y = 23 := Except.ok.inj (hy.symm.trans rfl)
  obtain rfl : z = 6 := Except.ok.inj (hz.symm.trans (by decide))
  obtain rfl : p = 70 := Except.ok.inj (hp.symm.trans (by decide))
  obtain rfl : q = 30 := Except.ok.inj (hq.symm.trans (by decide))
  exact ⟨a, b, v, rfl, rfl, rfl, ha, hb, hv, ⟨hshape, hsum⟩, ⟨rfl, hscaled⟩, hdifference,
    (hfull 64).2 (by decide)⟩

end TensorMechanics.Expr
