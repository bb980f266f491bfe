import Mathlib
import TensorMechanics.MultiIndex.Parts
import TensorMechanics.Proofs.MultiIndex.Overflow

/-!
# Proofs: the parts of an index

Splitting and joining by positions is cutting and appending lists of components. The rank bounds every
position, so if it is an index word no position overflows and none lies outside of its index.

The position of a joined index is that of the left part, in blocks as large as the right part has positions,
plus that of the right part. The right part has a position, so no block is empty, and the position of a part
overflows only if that of the whole does.
-/

namespace TensorMechanics.MultiIndex

variable {d r r₁ r₂ n : Nat}

/-! ## Components -/

theorem ext_component {ix jx : MultiIndex r} (h : ∀ k, ix.component k = jx.component k) : ix = jx := by
  obtain ⟨is, rfl⟩ := ix
  obtain ⟨js, hlen⟩ := jx
  refine MultiIndex.ext (List.ext_getElem hlen.symm fun k hk _ => ?_)
  exact h ⟨k, hk⟩

theorem component_positions (k : Fin n) : (positions n).component k = k := by
  simp [component, positions]

theorem component_split_left (h : r₁ + r₂ = r) (ix : MultiIndex r) (k : Fin r₁) :
    (ix.split h).1.component k = ix.component ((k.castAdd r₂).cast h) := by
  simp [component, split]

theorem component_split_right (h : r₁ + r₂ = r) (ix : MultiIndex r) (k : Fin r₂) :
    (ix.split h).2.component k = ix.component ((k.natAdd r₁).cast h) := by
  simp [component, split]

section Join

variable (h : r₁ + r₂ = r) (left : MultiIndex r₁) (right : MultiIndex r₂) {k : Fin r}

theorem component_join_of_lt (hk : k < r₁) :
    (join h left right).component k = left.component ⟨k, hk⟩ := by
  have hlength := left.length_components
  simp [component, join, hlength, hk]

theorem component_join_of_le (hk : r₁ ≤ k) :
    (join h left right).component k =
      right.component ⟨k - r₁, Nat.sub_lt_left_of_lt_add hk (k.isLt.trans_eq h.symm)⟩ := by
  have hlength := left.length_components
  simp [component, join, hlength, hk]

end Join

/-! ## Splitting and joining by positions -/

theorem componentAt_val (ix : MultiIndex r) (k : Fin r) : ix.componentAt k = .ok (ix.component k) :=
  dif_pos k.isLt

theorem ofFnM_of_forall {f : Fin n → Checked Nat} {ix : MultiIndex n}
    (h : ∀ k, f k = .ok (ix.component k)) : ofFnM f = .ok ix := by
  have hf : f = fun k => pure (ix.component k) := funext h
  rw [ofFnM, hf, Vector.ofFnM_pure]
  refine congrArg Except.ok (ext_component fun k => ?_)
  simp [component]

/-- The positions from `offset` on are sums of index words. If the last sum is none, one of them
overflows. -/
theorem positionsFrom_eq_ofFnM (offset n : Nat) :
    positionsFrom offset n = ofFnM fun k : Fin n => Word.add offset k := by
  by_cases hlast : n = 0 ∨ offset + (n - 1) < Word.limit
  · rw [positionsFrom, if_pos hlast]
    refine (ofFnM_of_forall fun k => ?_).symm
    rw [Word.add_of_lt (by omega)]
    simp [component]
  · rw [positionsFrom, if_neg hlast, ofFnM]
    cases hsums : Vector.ofFnM fun k : Fin n => Word.add offset k with
    | ok sums =>
      have hsum := Checked.ofFnM_eq_ok.mp hsums (n - 1) (by omega)
      simp only [Word.add] at hsum
      rw [if_neg (by omega)] at hsum
      cases hsum
    | error fault =>
      obtain ⟨k, hk⟩ := Checked.exists_of_ofFnM_eq_error hsums
      unfold Word.add at hk
      split at hk
      next => cases hk
      next => rw [Checked.error_bind, ← Except.error.inj hk]

theorem splitByPositions_eq (h : r₁ + r₂ = r) (hr : r < Word.limit) (ix : MultiIndex r) :
    ix.splitByPositions r₁ r₂ = .ok (ix.split h) := by
  have hplaces : r₂ = 0 ∨ r₁ + (r₂ - 1) < Word.limit := by omega
  have hleft : ix.gather (positions r₁) = .ok (ix.split h).1 := by
    refine ofFnM_of_forall fun k => ?_
    rw [component_positions, component_split_left]
    exact ix.componentAt_val ((k.castAdd r₂).cast h)
  have hright : ix.gather ⟨List.range' r₁ r₂, List.length_range'⟩ = .ok (ix.split h).2 := by
    refine ofFnM_of_forall fun k => ?_
    have hplace : component ⟨List.range' r₁ r₂, List.length_range'⟩ k = r₁ + k := by
      simp [component]
    rw [hplace, component_split_right]
    exact ix.componentAt_val ((k.natAdd r₁).cast h)
  rw [splitByPositions, positionsFrom, if_pos hplaces, Checked.ok_bind, hleft, Checked.ok_bind, hright,
    Checked.ok_bind, Checked.pure_eq_ok]

theorem joinByPositions_eq (h : r₁ + r₂ = r) (left : MultiIndex r₁) (right : MultiIndex r₂) :
    joinByPositions r left right = .ok (join h left right) := by
  refine ofFnM_of_forall fun k => ?_
  split
  next hk =>
    rw [component_join_of_lt h left right hk]
    exact left.componentAt_val ⟨k, hk⟩
  next hk =>
    have hle : r₁ ≤ k := Nat.not_lt.mp hk
    rw [Word.sub_of_le hle, Checked.ok_bind, component_join_of_le h left right hle]
    exact right.componentAt_val ⟨k - r₁, by omega⟩

/-- Joining the parts of an index gives the index back. -/
theorem join_split (h : r₁ + r₂ = r) (ix : MultiIndex r) :
    join h (ix.split h).1 (ix.split h).2 = ix :=
  MultiIndex.ext (List.take_append_drop r₁ ix.components)

/-! ## Positions -/

section Position

variable (h : r₁ + r₂ = r)

theorem inBounds_join {left : MultiIndex r₁} {right : MultiIndex r₂} :
    (join h left right).InBounds d ↔ left.InBounds d ∧ right.InBounds d := by
  rw [← inBounds_split h, split_join]

theorem offset_join (left : MultiIndex r₁) (right : MultiIndex r₂) :
    (join h left right).offset d = left.offset d * d ^ r₂ + right.offset d := by
  have hshift := foldl_shift (d := d) right.components (left.offset d)
  rw [right.length_components] at hshift
  exact List.foldl_append.trans hshift

/-- The position of a joined index is computed exactly if the positions of both parts are and the position
that they give together is an index word. -/
theorem linearOffset_join_eq_ok {left : MultiIndex r₁} {right : MultiIndex r₂} (hleft : left.InBounds d)
    (hright : right.InBounds d) {x : Nat} :
    (join h left right).linearOffset d = .ok x ↔
      ∃ p q, left.linearOffset d = .ok p ∧ right.linearOffset d = .ok q ∧ p * d ^ r₂ + q = x ∧
        x < Word.limit := by
  have hblock : 0 < d ^ r₂ := (Nat.zero_le _).trans_lt (offset_lt hright)
  have hscaled : left.offset d ≤ left.offset d * d ^ r₂ := Nat.le_mul_of_pos_right _ hblock
  rw [linearOffset_eq_ok ((inBounds_join h).mpr ⟨hleft, hright⟩), offset_join h]
  constructor
  · rintro ⟨rfl, hlt⟩
    exact ⟨left.offset d, right.offset d, linearOffset_of_lt hleft (by omega),
      linearOffset_of_lt hright (by omega), rfl, hlt⟩
  · rintro ⟨p, q, hp, hq, rfl, hlt⟩
    obtain ⟨rfl, -⟩ := (linearOffset_eq_ok hleft).mp hp
    obtain ⟨rfl, -⟩ := (linearOffset_eq_ok hright).mp hq
    exact ⟨rfl, hlt⟩

/-- The parts of the index in row `i` and column `j`, in rows of length `d ^ r₂`. -/
theorem split_ofOffset (i : Nat) {j : Nat} (hj : j < d ^ r₂) :
    (ofOffset d r (i * d ^ r₂ + j)).split h = (ofOffset d r₁ i, ofOffset d r₂ j) := by
  have hparts : ofOffset d r (i * d ^ r₂ + j) = join h (ofOffset d r₁ i) (ofOffset d r₂ j) :=
    MultiIndex.ext (components_ofOffset_add h i hj)
  rw [hparts, split_join]

end Position

end TensorMechanics.MultiIndex
