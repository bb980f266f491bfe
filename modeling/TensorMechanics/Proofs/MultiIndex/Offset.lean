import Mathlib
import TensorMechanics.Grid
import TensorMechanics.MultiIndex
import TensorMechanics.Proofs.Checked

/-!
# Proofs: multi-indices and positions

The index at position `p` has the digits of `p` in base `d`, and the position of an index is the
number with these digits. So indices in bounds and positions below `d ^ r` correspond one to one,
and where `d ^ r` is an index word the position is computed without a fault.

Joining two indices multiplies the position of the first by the number of positions of the second:
`digits_add` is this fact for digits, and contractions and outer products rest on it.
-/

namespace TensorMechanics.MultiIndex

variable {d r : Nat}

/-- The position of an index in row-major order. -/
def offset (d : Nat) (ix : MultiIndex r) : Nat :=
  ix.components.foldl (fun p i => p * d + i) 0

/-! ## Horner's rule -/

/-- Horner's rule from `p` on moves `p` by one place for every component. -/
theorem foldl_shift (is : List Nat) (p : Nat) :
    is.foldl (fun p i => p * d + i) p = p * d ^ is.length + is.foldl (fun p i => p * d + i) 0 := by
  induction is generalizing p with
  | nil => simp
  | cons i is ih =>
    rw [List.foldl_cons, List.foldl_cons, ih (p * d + i), ih (0 * d + i), List.length_cons, pow_succ]
    ring

theorem foldl_eq_sum (is : List Nat) :
    is.foldl (fun p i => p * d + i) 0 = ∑ k : Fin is.length, is.get k * d ^ (is.length - 1 - k) := by
  induction is with
  | nil => simp
  | cons i is ih =>
    show _ = ∑ k : Fin (is.length + 1), (i :: is).get k * d ^ (is.length - (k : Nat))
    rw [Fin.sum_univ_succ, List.foldl_cons, foldl_shift, ih]
    simp [Nat.sub_sub, Nat.add_comm 1]

/-- In the position, the component of axis `k` counts blocks of the axes behind it. -/
theorem offset_eq_sum (d : Nat) (ix : MultiIndex r) :
    ix.offset d = ∑ k : Fin r, ix.component k * d ^ (r - 1 - k) := by
  obtain ⟨is, rfl⟩ := ix
  exact foldl_eq_sum is

/-! ## Digits -/

theorem base_pos {p : Nat} (hp : p < d ^ (r + 1)) : 0 < d := by
  rcases Nat.eq_zero_or_pos d with rfl | hd
  · simp at hp
  · exact hd

/-- The digits of `x * d ^ r₂ + y` are those of `x`, then the `r₂` digits of `y`. -/
theorem digits_add (r₁ : Nat) {r₂ : Nat} (x : Nat) {y : Nat} (hy : y < d ^ r₂) :
    digits d (r₁ + r₂) (x * d ^ r₂ + y) = digits d r₁ x ++ digits d r₂ y := by
  induction r₂ generalizing y with
  | zero =>
    obtain rfl : y = 0 := by simpa using hy
    simp [digits]
  | succ r₂ ih =>
    have hd : 0 < d := base_pos hy
    have hquot : (x * d ^ (r₂ + 1) + y) / d = x * d ^ r₂ + y / d := by
      rw [pow_succ, ← Nat.mul_assoc, Nat.mul_comm _ d, Nat.mul_add_div hd]
    have hrem : (x * d ^ (r₂ + 1) + y) % d = y % d := by
      rw [pow_succ, ← Nat.mul_assoc, Nat.mul_comm _ d, Nat.mul_add_mod]
    have hyd : y / d < d ^ r₂ := Nat.div_lt_of_lt_mul (by rwa [pow_succ, Nat.mul_comm] at hy)
    rw [← Nat.add_assoc]
    simp only [digits]
    rw [hquot, hrem, ih hyd, List.append_assoc]

/-- The first digit of a number below `d ^ (r + 1)` counts the blocks of `d ^ r` positions before
it. -/
theorem digits_succ {p : Nat} (hp : p < d ^ (r + 1)) :
    digits d (r + 1) p = p / d ^ r :: digits d r (p % d ^ r) := by
  have hd : 0 < d := base_pos hp
  have hquot : p / d ^ r < d := Nat.div_lt_of_lt_mul (by rwa [pow_succ] at hp)
  have hsplit := digits_add (d := d) 1 (p / d ^ r) (Nat.mod_lt p (Nat.pow_pos (n := r) hd))
  rw [Nat.div_add_mod', Nat.add_comm 1 r] at hsplit
  rw [hsplit]
  simp [digits, Nat.mod_eq_of_lt hquot]

theorem lt_of_mem_digits {p i : Nat} (hp : p < d ^ r) (hi : i ∈ digits d r p) : i < d := by
  induction r generalizing p with
  | zero => simp [digits] at hi
  | succ r ih =>
    have hd : 0 < d := base_pos hp
    rcases List.mem_append.mp hi with hi | hi
    · exact ih (Nat.div_lt_of_lt_mul (by rwa [pow_succ, Nat.mul_comm] at hp)) hi
    · obtain rfl := List.mem_singleton.mp hi
      exact Nat.mod_lt p hd

/-- Reading the digits of a number gives the number back. -/
theorem foldl_digits {p : Nat} (hp : p < d ^ r) :
    (digits d r p).foldl (fun p i => p * d + i) 0 = p := by
  induction r generalizing p with
  | zero =>
    obtain rfl : p = 0 := by simpa using hp
    rfl
  | succ r ih =>
    have hquot : p / d < d ^ r := Nat.div_lt_of_lt_mul (by rwa [pow_succ, Nat.mul_comm] at hp)
    simp only [digits, List.foldl_append, List.foldl_cons, List.foldl_nil]
    rw [ih hquot, Nat.div_add_mod']

/-- A list of `r` digits is the digits of a number below `d ^ r`: the number that it is read as. -/
theorem digits_foldl (is : List Nat) (h : ∀ i ∈ is, i < d) :
    is.foldl (fun p i => p * d + i) 0 < d ^ is.length ∧
      digits d is.length (is.foldl (fun p i => p * d + i) 0) = is := by
  induction is using List.reverseRecOn with
  | nil => simp [digits]
  | append_singleton is i ih =>
    obtain ⟨hlt, hdigits⟩ := ih fun j hj => h j (List.mem_append_left [i] hj)
    have hi : i < d := h i (by simp)
    rw [List.foldl_append, List.length_append, List.length_singleton]
    simp only [List.foldl_cons, List.foldl_nil]
    generalize is.foldl (fun p i => p * d + i) 0 = p at hlt hdigits ⊢
    have hd : 0 < d := Nat.zero_lt_of_lt hi
    have hquot : (p * d + i) / d = p := by
      rw [Nat.mul_comm, Nat.mul_add_div hd, Nat.div_eq_of_lt hi, Nat.add_zero]
    have hrem : (p * d + i) % d = i := by
      rw [Nat.mul_comm, Nat.mul_add_mod, Nat.mod_eq_of_lt hi]
    constructor
    · rw [pow_succ]
      exact Grid.mul_add_lt hlt hi
    · simp only [digits]
      rw [hquot, hrem, hdigits]

/-- The digits of greater numbers are lexicographically greater. -/
theorem digits_lt_digits {p q : Nat} (h : p < q) (hq : q < d ^ r) : digits d r p < digits d r q := by
  induction r generalizing p q with
  | zero =>
    rw [pow_zero] at hq
    omega
  | succ r ih =>
    have hd : 0 < d := base_pos hq
    rw [digits_succ (h.trans hq), digits_succ hq, List.cons_lt_cons_iff]
    have hblocks : p / d ^ r ≤ q / d ^ r := Nat.div_le_div_right h.le
    rcases hblocks.lt_or_eq with hlt | heq
    · exact .inl hlt
    · -- both are in the same block, so they differ behind the first digit
      have hp := Nat.div_add_mod' p (d ^ r)
      have hq := Nat.div_add_mod' q (d ^ r)
      rw [heq] at hp
      exact .inr ⟨heq, ih (by omega) (Nat.mod_lt q (Nat.pow_pos hd))⟩

/-! ## The correspondence -/

theorem inBounds_ofOffset {p : Nat} (hp : p < d ^ r) : (ofOffset d r p).InBounds d :=
  fun _ hi => lt_of_mem_digits hp hi

theorem offset_ofOffset {p : Nat} (hp : p < d ^ r) : (ofOffset d r p).offset d = p :=
  foldl_digits hp

theorem offset_lt {ix : MultiIndex r} (h : ix.InBounds d) : ix.offset d < d ^ r := by
  have := (digits_foldl ix.components h).1
  rwa [ix.length_components] at this

theorem ofOffset_offset {ix : MultiIndex r} (h : ix.InBounds d) : ofOffset d r (ix.offset d) = ix := by
  apply MultiIndex.ext
  have := (digits_foldl ix.components h).2
  rwa [ix.length_components] at this

/-- Every index in bounds is the index at some position. -/
theorem InBounds.exists_ofOffset {ix : MultiIndex r} (h : ix.InBounds d) :
    ∃ p < d ^ r, ix = ofOffset d r p :=
  ⟨ix.offset d, offset_lt h, (ofOffset_offset h).symm⟩

theorem zeros_eq_ofOffset (d r : Nat) : zeros r = ofOffset d r 0 := by
  apply MultiIndex.ext
  change List.replicate r 0 = digits d r 0
  induction r with
  | zero => rfl
  | succ r ih => rw [List.replicate_succ', digits, Nat.zero_div, Nat.zero_mod, ih]

/-- Behind the last position, the positions start again. -/
theorem ofOffset_pow (d r : Nat) : ofOffset d r (d ^ r) = ofOffset d r 0 := by
  apply MultiIndex.ext
  change digits d r (d ^ r) = digits d r 0
  rcases Nat.eq_zero_or_pos (d ^ r) with hempty | hpos
  · rw [hempty]
  · have h := digits_add (d := d) 0 1 hpos
    rwa [Nat.zero_add, Nat.one_mul, Nat.add_zero] at h

/-- The index at a position of `r₁ + r₂` components is joined from the indices at the row and at the
column of the position, in rows of length `d ^ r₂`. -/
theorem components_ofOffset_add {r₁ r₂ : Nat} (h : r₁ + r₂ = r) (x : Nat) {y : Nat}
    (hy : y < d ^ r₂) :
    (ofOffset d r (x * d ^ r₂ + y)).components =
      (ofOffset d r₁ x).components ++ (ofOffset d r₂ y).components := by
  subst h
  exact digits_add r₁ x hy

/-! ## Components below the dimension -/

/-- The index with the given components. -/
def ofComponents (k : Fin r → Fin d) : MultiIndex r :=
  ⟨List.ofFn fun a => (k a).val, List.length_ofFn⟩

theorem inBounds_ofComponents (k : Fin r → Fin d) : (ofComponents k).InBounds d := by
  intro i hi
  obtain ⟨a, rfl⟩ := List.mem_ofFn.mp hi
  exact (k a).isLt

theorem ofComponents_injective : Function.Injective (ofComponents : (Fin r → Fin d) → _) := by
  intro k l h
  have hvalues := List.ofFn_injective (congrArg components h)
  funext a
  exact Fin.ext (congrFun hvalues a)

/-- Every index in bounds has components below the dimension. -/
theorem InBounds.exists_ofComponents {ix : MultiIndex r} (h : ix.InBounds d) :
    ∃ k : Fin r → Fin d, ofComponents k = ix := by
  have hlen (a : Fin r) : a.val < ix.components.length := a.isLt.trans_eq ix.length_components.symm
  refine ⟨fun a => ⟨ix.components.get ⟨a, hlen a⟩, h _ (List.get_mem _ _)⟩, MultiIndex.ext ?_⟩
  refine List.ext_getElem ((length_components _).trans ix.length_components.symm) fun p _ _ => ?_
  simp [ofComponents]

/-- Summing over the positions is summing over all choices of components. -/
theorem sum_ofOffset {M : Type} [AddCommMonoid M] (g : MultiIndex r → M) :
    ∑ p ∈ Finset.range (d ^ r), g (ofOffset d r p) = ∑ k : Fin r → Fin d, g (ofComponents k) := by
  symm
  refine Finset.sum_bij (fun k _ => (ofComponents k).offset d) ?_ ?_ ?_ ?_
  · intro k _
    exact Finset.mem_range.mpr (offset_lt (inBounds_ofComponents k))
  · intro k _ l _ h
    apply ofComponents_injective
    rw [← ofOffset_offset (inBounds_ofComponents k), h, ofOffset_offset (inBounds_ofComponents l)]
  · intro p hp
    have hp := Finset.mem_range.mp hp
    obtain ⟨k, hk⟩ := (inBounds_ofOffset hp).exists_ofComponents
    exact ⟨k, Finset.mem_univ k, by rw [hk, offset_ofOffset hp]⟩
  · intro k _
    rw [ofOffset_offset (inBounds_ofComponents k)]

/-! ## Joined indices -/

/-- Splitting a joined index gives both parts back. -/
theorem split_join {r₁ r₂ : Nat} (h : r₁ + r₂ = r) (left : MultiIndex r₁) (right : MultiIndex r₂) :
    (join h left right).split h = (left, right) :=
  Prod.ext (MultiIndex.ext (List.take_left' left.length_components))
    (MultiIndex.ext (List.drop_left' left.length_components))

/-- Summing over all choices of components is summing over the first ones and over the others. -/
theorem sum_join {M : Type} [AddCommMonoid M] {r₁ r₂ : Nat} (h : r₁ + r₂ = r) (g : MultiIndex r → M) :
    ∑ k : Fin r → Fin d, g (ofComponents k) =
      ∑ i : Fin r₁ → Fin d, ∑ j : Fin r₂ → Fin d, g (join h (ofComponents i) (ofComponents j)) := by
  subst h
  have happend : ∀ (i : Fin r₁ → Fin d) (j : Fin r₂ → Fin d),
      ofComponents (Fin.append i j) = join rfl (ofComponents i) (ofComponents j) := by
    intro i j
    apply MultiIndex.ext
    have hvalues := congrArg (List.map Fin.val) (List.ofFn_fin_append i j)
    rwa [List.map_append, List.map_ofFn, List.map_ofFn, List.map_ofFn] at hvalues
  rw [← (Fin.appendEquiv r₁ r₂).sum_comp, Fintype.sum_prod_type]
  exact Finset.sum_congr rfl fun i _ => Finset.sum_congr rfl fun j _ => congrArg g (happend i j)

/-! ## Bounds -/

theorem not_inBounds_iff {ix : MultiIndex r} : ¬ ix.InBounds d ↔ ∃ i ∈ ix.components, d ≤ i := by
  simp [InBounds]

/-- An index is in bounds exactly if both of its parts are. -/
theorem inBounds_split {r₁ r₂ : Nat} (h : r₁ + r₂ = r) (ix : MultiIndex r) :
    (ix.split h).1.InBounds d ∧ (ix.split h).2.InBounds d ↔ ix.InBounds d := by
  have hsplit : ix.components.take r₁ ++ ix.components.drop r₁ = ix.components :=
    List.take_append_drop r₁ ix.components
  have happend : (∀ i ∈ ix.components.take r₁ ++ ix.components.drop r₁, i < d) ↔
      (∀ i ∈ ix.components.take r₁, i < d) ∧ ∀ i ∈ ix.components.drop r₁, i < d :=
    List.forall_mem_append
  rw [hsplit] at happend
  exact happend.symm

/-! ## Computing positions -/

/-- Horner's rule does not fault if its last result is an index word: no earlier result is above
it. -/
theorem horner_of_lt (is : List Nat) (p : Nat) (h : ∀ i ∈ is, i < d)
    (hlt : is.foldl (fun p i => p * d + i) p < Word.limit) :
    horner d p is = .ok (is.foldl (fun p i => p * d + i) p) := by
  induction is generalizing p with
  | nil => rfl
  | cons i is ih =>
    have hd : 0 < d := Nat.zero_lt_of_lt (h i List.mem_cons_self)
    rw [List.foldl_cons] at hlt ⊢
    have hstep : p * d + i < Word.limit := by
      rw [foldl_shift] at hlt
      have hscaled : p * d + i ≤ (p * d + i) * d ^ is.length :=
        Nat.le_mul_of_pos_right _ (Nat.pow_pos hd)
      omega
    rw [horner, Word.mul_of_lt (by omega), Checked.ok_bind, Word.add_of_lt hstep, Checked.ok_bind]
    exact ih (p * d + i) (fun j hj => h j (List.mem_cons_of_mem i hj)) hlt

theorem linearOffset_of_lt {ix : MultiIndex r} (h : ix.InBounds d) (hlt : ix.offset d < Word.limit) :
    ix.linearOffset d = .ok (ix.offset d) := by
  rw [linearOffset, if_pos h]
  exact horner_of_lt ix.components 0 h hlt

theorem linearOffset_of_inBounds {ix : MultiIndex r} (hlen : d ^ r < Word.limit)
    (h : ix.InBounds d) : ix.linearOffset d = .ok (ix.offset d) :=
  linearOffset_of_lt h ((offset_lt h).trans hlen)

theorem linearOffset_ofOffset (hlen : d ^ r < Word.limit) {p : Nat} (hp : p < d ^ r) :
    (ofOffset d r p).linearOffset d = .ok p := by
  rw [linearOffset_of_inBounds hlen (inBounds_ofOffset hp), offset_ofOffset hp]

theorem linearOffset_of_not_inBounds {ix : MultiIndex r} (h : ¬ ix.InBounds d) :
    ix.linearOffset d = .error (.indexOutOfBounds ix.components d) :=
  if_neg h

/-- Below a power of the base, no division is by zero. -/
theorem checkedDigits_of_lt {p : Nat} (hp : p < d ^ r) : checkedDigits d r p = .ok (digits d r p) := by
  induction r generalizing p with
  | zero => rfl
  | succ r ih =>
    have hd : d ≠ 0 := (base_pos hp).ne'
    have hquot : p / d < d ^ r := Nat.div_lt_of_lt_mul (by rwa [pow_succ, Nat.mul_comm] at hp)
    rw [checkedDigits, Word.mod, if_neg hd, Word.div, if_neg hd, Checked.ok_bind, Checked.ok_bind,
      ih hquot, Checked.ok_bind, Checked.pure_eq_ok, digits]

end TensorMechanics.MultiIndex
