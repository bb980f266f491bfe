import Mathlib
import TensorMechanics.Proofs.Expr.Evaluation
import TensorMechanics.Proofs.MultiIndex.Parts

/-!
# Proofs: the entries of an outer product

The outer product of two tensors multiplies every entry of the left one by every entry of the right one, and
the products lie in storage row by row: a row for each entry of the left tensor, with a product for each entry
of the right one. This is what splitting an index at a fixed place amounts to in storage, where the position
of an index factors into the positions of its parts. Each product is one multiplication, so no law of the
scalars is used.
-/

namespace TensorMechanics

variable {α : Type} {d r r₁ r₂ : Nat}

/-! ## Pairs of entries -/

namespace Grid

variable {β : Type} {m n : Nat}

theorem toList_eq_ofFn (xs : Vector α m) : xs.toList = List.ofFn fun i => xs[i] :=
  (congrArg Vector.toList Vector.ofFn_getElem.symm).trans Vector.toList_ofFn

/-- The pairs of an entry of one buffer and an entry of another, row by row. -/
theorem product_toList (xs : Vector α m) (ys : Vector β n) :
    xs.toList ×ˢ ys.toList = List.ofFn fun p : Fin (m * n) => (xs[rowOf p], ys[columnOf p]) := by
  -- both sides are rows one after the other, and row `i` pairs `xs[i]` with every entry of `ys`
  show List.flatMap _ _ = _
  rw [List.ofFn_mul, toList_eq_ofFn xs, toList_eq_ofFn ys, List.flatMap_def, List.map_ofFn]
  refine congrArg List.flatten (congrArg List.ofFn (funext fun i => ?_))
  show List.map _ _ = _
  rw [List.map_ofFn]
  refine congrArg List.ofFn (funext fun j => ?_)
  show (xs[i], ys[j]) = (xs[rowOf (position i j)], ys[columnOf (position i j)])
  simp only [rowOf_position, columnOf_position]

end Grid

/-! ## Products of entries -/

namespace Expr

variable [Scalar α] (h : r₁ + r₂ = r) (u : Tensor α d r₁) (v : Tensor α d r₂)

/-- The value in row `i` and column `j` is the product of entry `i` and entry `j`. -/
theorem evaluate_outer_tensors (hlen : d ^ r < Word.limit) {i j : Nat} (hi : i < d ^ r₁)
    (hj : j < d ^ r₂) :
    (outer h (.tensor u) (.tensor v)).evaluate (.ofOffset d r (i * d ^ r₂ + j)) =
      Scalar.mul u.entries[i] v.entries[j] := by
  have hleft : d ^ r₁ < Word.limit := MultiIndex.pow_lt_limit hlen (by omega)
  have hright : d ^ r₂ < Word.limit := MultiIndex.pow_lt_limit hlen (by omega)
  rw [evaluate, MultiIndex.split_ofOffset h i hj, evaluate, evaluate, u.read_ofOffset hleft hi,
    v.read_ofOffset hright hj, Checked.ok_bind, Checked.ok_bind]

/-- Materializing multiplies the pairs of entries in order. -/
theorem toList_eval_outer (hlen : d ^ r < Word.limit) :
    Tensor.toList <$> (outer h (.tensor u) (.tensor v)).eval =
      (u.toList ×ˢ v.toList).mapM fun xy => Scalar.mul xy.1 xy.2 := by
  have hpow : d ^ r = d ^ r₁ * d ^ r₂ := (Tensor.rows_mul_columns h).symm
  rw [toList_eval _ hlen, Tensor.toList, Tensor.toList, Grid.product_toList, List.ofFn_eq_map,
    List.mapM_map, hpow, ← List.map_coe_finRange_eq_range, List.mapM_map]
  refine congrArg (fun f => List.mapM f _) (funext fun p => ?_)
  have hp : (Grid.rowOf p : Nat) * d ^ r₂ + Grid.columnOf p = p :=
    congrArg Fin.val (Grid.position_rowOf_columnOf p)
  have hvalue := evaluate_outer_tensors h u v hlen (Grid.rowOf p).isLt (Grid.columnOf p).isLt
  rwa [hp] at hvalue

/-- Materializing answers exactly if the entries can be counted and every product answers. -/
theorem exists_eval_outer :
    (∃ t, (outer h (.tensor u) (.tensor v)).eval = .ok t) ↔
      d ^ r < Word.limit ∧ ∀ x ∈ u.toList, ∀ y ∈ v.toList, ∃ z, Scalar.mul x y = .ok z := by
  rcases Nat.lt_or_ge (d ^ r) Word.limit with hlen | hlen
  · have hpairs : (∃ t, (outer h (.tensor u) (.tensor v)).eval = .ok t) ↔
        ∃ zs, (u.toList ×ˢ v.toList).mapM (fun xy => Scalar.mul xy.1 xy.2) = .ok zs := by
      simp only [← toList_eval_outer h u v hlen, Checked.map_eq_ok]
      rw [exists_comm]
      simp only [exists_and_left, exists_eq', and_true]
    rw [hpairs, Checked.exists_mapM_eq_ok]
    constructor
    · intro hall
      exact ⟨hlen, fun x hx y hy => hall (x, y) (List.pair_mem_product.mpr ⟨hx, hy⟩)⟩
    · rintro ⟨-, hall⟩ ⟨x, y⟩ hxy
      obtain ⟨hx, hy⟩ := List.pair_mem_product.mp hxy
      exact hall x hx y hy
  · rw [eval_of_le _ hlen]
    simp [Nat.not_lt.mpr hlen]

/-- The entry in row `i` and column `j` of the materialized product. -/
theorem getElem?_toList_of_eval_outer {t : Tensor α d r}
    (ht : (outer h (.tensor u) (.tensor v)).eval = .ok t) (i : Fin (d ^ r₁)) (j : Fin (d ^ r₂)) :
    ∃ z, Scalar.mul u.entries[i] v.entries[j] = .ok z ∧ t.toList[i * d ^ r₂ + j]? = some z := by
  obtain ⟨hlen, hentries⟩ := eval_eq_ok.mp ht
  have hposition : i * d ^ r₂ + j < Nat.pow d r :=
    (Grid.mul_add_lt i.isLt j.isLt).trans_eq (Tensor.rows_mul_columns h)
  have hvalue := hentries _ hposition
  rw [evaluate_outer_tensors h u v hlen i.isLt j.isLt] at hvalue
  refine ⟨_, hvalue, ?_⟩
  rw [Tensor.toList, Vector.getElem?_toList, Vector.getElem?_eq_getElem hposition]

end Expr

/-! ## Parts of indices and outer products -/

open MultiIndex

/-- Splitting an index and joining two are inverse to each other, by positions as well as by cutting and
appending, and an index is in bounds exactly if both of its parts are. The position of a joined index is that
of the left part times `d ^ r₂` plus that of the right part: it is computed exactly if these are and it is an
index word, which is so if an index word counts the entries. Hence the entries of the outer product of two
tensors are the products of their entries, with that of entry `i` and entry `j` at position `i * d ^ r₂ + j`.
They are computed in the order of storage, and so with the first fault there is, if there is one. No law of the
scalars is used. -/
theorem parts_factor_offset (d : Nat) {r r₁ r₂ : Nat} (h : r₁ + r₂ = r) :
    (∀ ix : MultiIndex r,
      (r < Word.limit → ix.splitByPositions r₁ r₂ = .ok (ix.split h)) ∧
      join h (ix.split h).1 (ix.split h).2 = ix ∧
      (ix.InBounds d ↔ (ix.split h).1.InBounds d ∧ (ix.split h).2.InBounds d)) ∧
    (∀ (left : MultiIndex r₁) (right : MultiIndex r₂),
      joinByPositions r left right = .ok (join h left right) ∧
      (join h left right).split h = (left, right) ∧
      (left.InBounds d → right.InBounds d →
        (∀ x, (join h left right).linearOffset d = .ok x ↔
          ∃ p q, left.linearOffset d = .ok p ∧ right.linearOffset d = .ok q ∧
            p * d ^ r₂ + q = x ∧ x < Word.limit) ∧
        (d ^ r < Word.limit → ∃ p q, left.linearOffset d = .ok p ∧ right.linearOffset d = .ok q ∧
          (join h left right).linearOffset d = .ok (p * d ^ r₂ + q)))) ∧
    ∀ {α : Type} [Scalar α] (u : Tensor α d r₁) (v : Tensor α d r₂),
      (d ^ r < Word.limit → Tensor.toList <$> (Expr.outer h (.tensor u) (.tensor v)).eval =
        (u.toList ×ˢ v.toList).mapM fun xy => Scalar.mul xy.1 xy.2) ∧
      ((∃ t, (Expr.outer h (.tensor u) (.tensor v)).eval = .ok t) ↔
        d ^ r < Word.limit ∧ ∀ x ∈ u.toList, ∀ y ∈ v.toList, ∃ z, Scalar.mul x y = .ok z) ∧
      ∀ t, (Expr.outer h (.tensor u) (.tensor v)).eval = .ok t →
        ∀ (i : Fin (d ^ r₁)) (j : Fin (d ^ r₂)), ∃ z,
          Scalar.mul u.entries[i] v.entries[j] = .ok z ∧ t.toList[i * d ^ r₂ + j]? = some z := by
  refine ⟨fun ix => ⟨?_, join_split h ix, (inBounds_split h ix).symm⟩, fun left right =>
    ⟨joinByPositions_eq h left right, split_join h left right, fun hleft hright => ⟨?_, ?_⟩⟩,
    fun u v => ⟨Expr.toList_eval_outer h u v, Expr.exists_eval_outer h u v, ?_⟩⟩
  · intro hr
    exact splitByPositions_eq h hr ix
  · intro x
    exact linearOffset_join_eq_ok h hleft hright
  · intro hlen
    have hjoin := linearOffset_of_inBounds hlen ((inBounds_join h).mpr ⟨hleft, hright⟩)
    obtain ⟨p, q, hp, hq, hsum, -⟩ := (linearOffset_join_eq_ok h hleft hright).mp hjoin
    exact ⟨p, q, hp, hq, by rw [hjoin, hsum]⟩
  · intro t ht
    exact Expr.getElem?_toList_of_eval_outer h u v ht

attribute [local instance] Scalar.exact

/-- An index of rank three, split behind its first component, and the outer product of a vector and a
matrix. -/
theorem parts_factor_offset_vector_matrix :
    ∃ (ix : MultiIndex 3) (left : MultiIndex 1) (right : MultiIndex 2) (u : Tensor Int 2 1)
      (v : Tensor Int 2 2) (t : Tensor Int 2 3),
      ix.components = [1, 0, 1] ∧ left.components = [1] ∧ right.components = [0, 1] ∧
      3 < Word.limit ∧ ix.splitByPositions 1 2 = .ok (left, right) ∧
      joinByPositions 3 left right = .ok ix ∧ left.InBounds 2 ∧ right.InBounds 2 ∧
      2 ^ 3 < Word.limit ∧ left.linearOffset 2 = .ok 1 ∧ right.linearOffset 2 = .ok 1 ∧
      ix.linearOffset 2 = .ok (1 * 2 ^ 2 + 1) ∧
      u.toList = [1, 2] ∧ v.toList = [3, 4, 5, 6] ∧
      (Expr.outer rfl (.tensor u) (.tensor v)).eval = .ok t ∧
      t.toList = [3, 4, 5, 6, 6, 8, 10, 12] := by
  have hword : 3 < Word.limit := by decide
  have hlen : 2 ^ 3 < Word.limit := by decide
  obtain ⟨hsplit, hjoin, htensors⟩ := parts_factor_offset 2 (rfl : 1 + 2 = 3)
  obtain ⟨hjoined, -, hoffset⟩ := hjoin ⟨[1], rfl⟩ ⟨[0, 1], rfl⟩
  have hleft : (⟨[1], rfl⟩ : MultiIndex 1).InBounds 2 := by decide
  have hright : (⟨[0, 1], rfl⟩ : MultiIndex 2).InBounds 2 := by decide
  have hsum := ((hoffset hleft hright).1 5).mpr ⟨1, 1, rfl, rfl, rfl, by decide⟩
  obtain ⟨hproducts, -, -⟩ := htensors (⟨#v[1, 2]⟩ : Tensor Int 2 1) ⟨#v[3, 4, 5, 6]⟩
  obtain ⟨t, ht, hentries⟩ := Checked.map_eq_ok.mp (hproducts hlen)
  exact ⟨⟨[1, 0, 1], rfl⟩, ⟨[1], rfl⟩, ⟨[0, 1], rfl⟩, ⟨#v[1, 2]⟩, ⟨#v[3, 4, 5, 6]⟩, t, rfl, rfl, rfl,
    hword, (hsplit ⟨[1, 0, 1], rfl⟩).1 hword, hjoined, hleft, hright, hlen, rfl, rfl, hsum, rfl, rfl, ht,
    hentries⟩

end TensorMechanics
