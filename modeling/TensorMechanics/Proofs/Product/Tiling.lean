import Mathlib
import TensorMechanics.Proofs.Product.Plan

/-!
# Proofs: plans tile the product

`Plan.build` halves the longest side until no side is above the leaf size. Each cut lowers the binary
logarithm of the side it halves, rounded up, so the calls inside each other are at most as many as the
three logarithms together, and one. This needs a leaf size that is not zero: a block of single entries
is its own second half.

The halves of a cut lie side by side, so an index triple of a block is in the box of one half and not
in that of the other. By induction on the plan it lies in the box of exactly one leaf.
-/

namespace TensorMechanics.Product

/-! ## Levels of calls -/

theorem clog_half_lt (size : Nat) (h : 2 ≤ size) :
    Nat.clog 2 (size / 2) < Nat.clog 2 size ∧ Nat.clog 2 (size - size / 2) < Nat.clog 2 size := by
  have hstep : Nat.clog 2 size = Nat.clog 2 (size - size / 2) + 1 := by
    rw [Nat.clog_of_two_le Nat.one_lt_two h]
    congr 2
    omega
  have hsmaller : Nat.clog 2 (size / 2) ≤ Nat.clog 2 (size - size / 2) :=
    Nat.clog_mono_right 2 (by omega)
  omega

/-- With a leaf size of one at least, the calls inside each other are bounded by the logarithms of the
sides. -/
theorem Plan.buildWithin?_eq_some (leafSize levels depth m k n : Nat)
    (h : Nat.clog 2 m + Nat.clog 2 k + Nat.clog 2 n < levels) :
    buildWithin? levels (max leafSize 1) depth m k n = some (build leafSize depth m k n) := by
  fun_induction build leafSize depth m k n generalizing levels with
  | case1 depth m k n hempty =>
    obtain ⟨levels, rfl⟩ := Nat.exists_eq_add_one_of_ne_zero (Nat.ne_zero_of_lt h)
    rw [buildWithin?, if_pos hempty]
  | case2 depth m k n hempty hsmall =>
    obtain ⟨levels, rfl⟩ := Nat.exists_eq_add_one_of_ne_zero (Nat.ne_zero_of_lt h)
    rw [buildWithin?, if_neg hempty, if_pos hsmall]
  | case3 depth m k n hempty hlarge hlongest ihTop ihBottom =>
    obtain ⟨levels, rfl⟩ := Nat.exists_eq_add_one_of_ne_zero (Nat.ne_zero_of_lt h)
    -- the side that is cut is the longest one, so it has two entries at least
    obtain ⟨htop, hbottom⟩ := clog_half_lt m (by omega)
    rw [buildWithin?, if_neg hempty, if_neg hlarge, if_pos hlongest,
      ihTop levels (by omega), ihBottom levels (by omega)]
    rfl
  | case4 depth m k n hempty hlarge hrows hlongest ihLeft ihRight =>
    obtain ⟨levels, rfl⟩ := Nat.exists_eq_add_one_of_ne_zero (Nat.ne_zero_of_lt h)
    obtain ⟨hleft, hright⟩ := clog_half_lt n (by omega)
    rw [buildWithin?, if_neg hempty, if_neg hlarge, if_neg hrows, if_pos hlongest,
      ihLeft levels (by omega), ihRight levels (by omega)]
    rfl
  | case5 depth m k n hempty hlarge hrows hcolumns ihFirst ihSecond =>
    obtain ⟨levels, rfl⟩ := Nat.exists_eq_add_one_of_ne_zero (Nat.ne_zero_of_lt h)
    obtain ⟨hfirst, hsecond⟩ := clog_half_lt k (by omega)
    rw [buildWithin?, if_neg hempty, if_neg hlarge, if_neg hrows, if_neg hcolumns,
      ihFirst levels (by omega), ihSecond levels (by omega)]
    rfl

/-- With leaf size zero no number of levels is enough: the second half of a block that is not empty is
not empty either. -/
theorem Plan.buildWithin?_zero_leafSize (levels depth : Nat) {m k n : Nat} (hm : 0 < m) (hk : 0 < k)
    (hn : 0 < n) : buildWithin? levels 0 depth m k n = none := by
  induction levels generalizing depth m k n with
  | zero => rfl
  | succ levels ih =>
    rw [buildWithin?, if_neg (by omega), if_neg (by omega)]
    by_cases hrows : n ≤ m ∧ k ≤ m
    · rw [if_pos hrows, ih _ (m := m - m / 2) (by omega) hk hn]
      simp
    · rw [if_neg hrows]
      by_cases hcolumns : k ≤ n
      · rw [if_pos hcolumns, ih _ (n := n - n / 2) hm hk (by omega)]
        simp
      · rw [if_neg hcolumns, ih _ (k := k - k / 2) hm (by omega) hn]
        simp

/-! ## Cuts -/

/-- The positions of a part of a side, which is given by the first one and their number. -/
def positions (part : Nat × Nat) : Finset Nat := Finset.Ico part.1 (part.1 + part.2)

/-- A cut: the part of a side that is cut, and both halves of it. -/
structure Cut where
  whole : Nat × Nat
  first : Nat × Nat
  second : Nat × Nat
  deriving DecidableEq, Repr

/-- The halves lie side by side, cover what is cut, and each is smaller but not empty. -/
structure Cut.Halves (cut : Cut) : Prop where
  start : cut.first.1 = cut.whole.1
  adjacent : cut.second.1 = cut.first.1 + cut.first.2
  disjoint : Disjoint (positions cut.first) (positions cut.second)
  cover : positions cut.first ∪ positions cut.second = positions cut.whole
  first_pos : 0 < cut.first.2
  second_pos : 0 < cut.second.2
  first_lt : cut.first.2 < cut.whole.2
  second_lt : cut.second.2 < cut.whole.2

/-- The cut in the middle. -/
def Cut.middle (start size : Nat) : Cut :=
  ⟨(start, size), (start, size / 2), (start + size / 2, size - size / 2)⟩

theorem Cut.halves_middle (start : Nat) {size : Nat} (h : 2 ≤ size) : (middle start size).Halves where
  start := rfl
  adjacent := rfl
  disjoint := Finset.Ico_disjoint_Ico_consecutive _ _ _
  cover := by
    dsimp only [positions, middle]
    rw [Finset.Ico_union_Ico_eq_Ico (by omega) (by omega), Nat.add_assoc, half_add_half]
  first_pos := Nat.div_pos h Nat.two_pos
  second_pos := by
    dsimp only [middle]
    omega
  first_lt := Nat.div_lt_self (by omega) Nat.one_lt_two
  second_lt := by
    dsimp only [middle]
    omega

/-- The cuts of a plan whose own box starts at the given row, inner position and column. -/
def Plan.cuts {m k n : Nat} : Plan m k n → (row mid column : Nat) → List Cut
  | .skip, _, _, _ => []
  | .leaf, _, _, _ => []
  | .rows m₁ m₂ _ _ top bottom, row, mid, column =>
    ⟨(row, m), (row, m₁), (row + m₁, m₂)⟩ ::
      (top.cuts row mid column ++ bottom.cuts (row + m₁) mid column)
  | .columns n₁ n₂ _ _ left right, row, mid, column =>
    ⟨(column, n), (column, n₁), (column + n₁, n₂)⟩ ::
      (left.cuts row mid column ++ right.cuts row mid (column + n₁))
  | .inner k₁ k₂ _ _ first second, row, mid, column =>
    ⟨(mid, k), (mid, k₁), (mid + k₁, k₂)⟩ ::
      (first.cuts row mid column ++ second.cuts row (mid + k₁) column)

/-- Every cut of a plan that is built is one in the middle of a side with two entries at least. -/
theorem Plan.halves_of_mem_cuts (leafSize depth m k n row mid column : Nat) {cut : Cut}
    (h : cut ∈ (build leafSize depth m k n).cuts row mid column) : cut.Halves := by
  fun_induction build leafSize depth m k n generalizing row mid column with
  | case1 => cases h
  | case2 => cases h
  | case3 depth m k n _ hlarge hlongest ihTop ihBottom =>
    simp only [cuts, List.mem_cons, List.mem_append] at h
    obtain rfl | h | h := h
    · exact Cut.halves_middle row (by omega)
    · exact ihTop _ _ _ h
    · exact ihBottom _ _ _ h
  | case4 depth m k n _ hlarge _ hlongest ihLeft ihRight =>
    simp only [cuts, List.mem_cons, List.mem_append] at h
    obtain rfl | h | h := h
    · exact Cut.halves_middle column (by omega)
    · exact ihLeft _ _ _ h
    · exact ihRight _ _ _ h
  | case5 depth m k n _ hlarge _ hlongest ihFirst ihSecond =>
    simp only [cuts, List.mem_cons, List.mem_append] at h
    obtain rfl | h | h := h
    · exact Cut.halves_middle mid (by omega)
    · exact ihFirst _ _ _ h
    · exact ihSecond _ _ _ h

/-! ## Boxes of leaves -/

/-- Whether an index triple lies in a box. -/
def Box.Contains (box : Box) (i p j : Nat) : Prop :=
  i ∈ positions box.rows ∧ p ∈ positions box.inner ∧ j ∈ positions box.columns

instance (box : Box) (i p j : Nat) : Decidable (box.Contains i p j) :=
  inferInstanceAs (Decidable (_ ∧ _ ∧ _))

/-- The sides of the box of a leaf are not empty and not above the leaf size. -/
theorem Plan.sides_of_mem_boxes (leafSize depth m k n row mid column : Nat) {box : Box}
    (h : box ∈ (build leafSize depth m k n).boxes row mid column) :
    ∀ side ∈ [box.rows.2, box.inner.2, box.columns.2], 1 ≤ side ∧ side ≤ max leafSize 1 := by
  fun_induction build leafSize depth m k n generalizing row mid column with
  | case1 => cases h
  | case2 depth m k n hempty hsmall =>
    obtain rfl := List.mem_singleton.mp h
    simp only [List.mem_cons, List.not_mem_nil, or_false]
    rintro side (rfl | rfl | rfl) <;> omega
  | case3 depth m k n _ _ _ ihTop ihBottom =>
    rcases List.mem_append.mp h with h | h
    · exact ihTop _ _ _ h
    · exact ihBottom _ _ _ h
  | case4 depth m k n _ _ _ _ ihLeft ihRight =>
    rcases List.mem_append.mp h with h | h
    · exact ihLeft _ _ _ h
    · exact ihRight _ _ _ h
  | case5 depth m k n _ _ _ _ ihFirst ihSecond =>
    rcases List.mem_append.mp h with h | h
    · exact ihFirst _ _ _ h
    · exact ihSecond _ _ _ h

/-- Exactly one leaf of a complete plan has the index triple in its box if the box of the plan contains
it, and no leaf else. -/
theorem Plan.countP_boxes {m k n : Nat} (plan : Plan m k n) (hplan : plan.Complete)
    (row mid column i p j : Nat) :
    (plan.boxes row mid column).countP (fun box => box.Contains i p j) =
      if Box.Contains ⟨(row, m), (mid, k), (column, n)⟩ i p j then 1 else 0 := by
  induction plan generalizing row mid column with
  | @skip m k n =>
    have hempty : ¬ Box.Contains ⟨(row, m), (mid, k), (column, n)⟩ i p j := by
      simp only [Box.Contains, positions, Finset.mem_Ico]
      rcases hplan with rfl | rfl | rfl <;> omega
    rw [if_neg hempty]
    rfl
  | leaf => simp [boxes, List.countP_singleton]
  | rows m₁ m₂ h forked top bottom ihTop ihBottom =>
    rw [boxes, List.countP_append, ihTop hplan.1, ihBottom hplan.2]
    -- a row of the box is in one of the halves
    simp only [Box.Contains, positions, Finset.mem_Ico]
    split_ifs <;> omega
  | columns n₁ n₂ h forked left right ihLeft ihRight =>
    rw [boxes, List.countP_append, ihLeft hplan.1, ihRight hplan.2]
    simp only [Box.Contains, positions, Finset.mem_Ico]
    split_ifs <;> omega
  | inner k₁ k₂ h forked first second ihFirst ihSecond =>
    rw [boxes, List.countP_append, ihFirst hplan.1, ihSecond hplan.2]
    simp only [Box.Contains, positions, Finset.mem_Ico]
    split_ifs <;> omega

end TensorMechanics.Product
