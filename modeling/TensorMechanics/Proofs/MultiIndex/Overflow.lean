import Mathlib
import TensorMechanics.Proofs.MultiIndex.Walk

/-!
# Proofs: overflow of index arithmetic

The number of entries and the position of an index are computed step by step in index words, and a step
overflows if its exact result is no index word. Exact results do not decrease from one step to the next,
unless the dimension is zero, and then they are small. So a computation overflows exactly if its last exact
result is no index word.

Walks and unravelling need the number of entries to be an index word, positions do not: of `2 ^ 64` entries
every position is one, and only their number is not.
-/

namespace TensorMechanics

variable {d r : Nat}

theorem storageLength_eq (d r : Nat) : storageLength d r =
    if d ^ r < Word.limit then .ok (d ^ r) else .error (.overflow .multiplication) := by
  by_cases hlen : d ^ r < Word.limit
  · rw [if_pos hlen, storageLength_of_lt hlen]
  · rw [if_neg hlen, storageLength_of_le (Nat.not_lt.mp hlen)]

namespace MultiIndex

/-! ## Positions -/

/-- The position of the first `k` components, which Horner's rule has reached after `k` steps. -/
def partialOffset (d : Nat) (ix : MultiIndex r) (k : Nat) : Nat :=
  (ix.components.take k).foldl (fun p i => p * d + i) 0

/-- If Horner's rule ends at no index word, the first step that leaves the index words decides: its product
overflows, or else its sum. -/
theorem horner_of_le (is : List Nat) {p : Nat} (hp : p < Word.limit)
    (hge : Word.limit ≤ is.foldl (fun p i => p * d + i) p) :
    ∃ k < is.length, (is.take k).foldl (fun p i => p * d + i) p < Word.limit ∧
      Word.limit ≤ (is.take (k + 1)).foldl (fun p i => p * d + i) p ∧
      horner d p is = .error (.overflow
        (if (is.take k).foldl (fun p i => p * d + i) p * d < Word.limit then .addition
          else .multiplication)) := by
  induction is generalizing p with
  | nil => exact absurd hp (Nat.not_lt.mpr hge)
  | cons i is ih =>
    by_cases hstep : p * d + i < Word.limit
    · -- this step answers, so the step that overflows is a later one
      have hmul : p * d < Word.limit := by omega
      obtain ⟨k, hk, hbefore, hafter, hfault⟩ := ih hstep hge
      refine ⟨k + 1, Nat.succ_lt_succ hk, hbefore, hafter, ?_⟩
      rw [horner, Word.mul_of_lt hmul, Checked.ok_bind, Word.add_of_lt hstep, Checked.ok_bind, hfault]
      rfl
    · refine ⟨0, Nat.zero_lt_succ _, hp, Nat.not_lt.mp hstep, ?_⟩
      show horner d p (i :: is) =
        .error (.overflow (if p * d < Word.limit then .addition else .multiplication))
      by_cases hmul : p * d < Word.limit
      · rw [if_pos hmul, horner, Word.mul_of_lt hmul, Checked.ok_bind, Word.add, if_neg hstep,
          Checked.error_bind]
      · rw [if_neg hmul, horner, Word.mul, if_neg hmul, Checked.error_bind]

theorem linearOffset_of_le {ix : MultiIndex r} (h : ix.InBounds d) (hge : Word.limit ≤ ix.offset d) :
    ∃ k < r, ix.partialOffset d k < Word.limit ∧ Word.limit ≤ ix.partialOffset d (k + 1) ∧
      ix.linearOffset d = .error (.overflow
        (if ix.partialOffset d k * d < Word.limit then .addition else .multiplication)) := by
  have hfault := horner_of_le ix.components (by decide) hge
  rw [ix.length_components] at hfault
  rw [linearOffset, if_pos h]
  exact hfault

/-- The position of an index in bounds is computed exactly if it is an index word. -/
theorem linearOffset_eq_ok {ix : MultiIndex r} (h : ix.InBounds d) {p : Nat} :
    ix.linearOffset d = .ok p ↔ ix.offset d = p ∧ p < Word.limit := by
  rcases Nat.lt_or_ge (ix.offset d) Word.limit with hlt | hge
  · rw [linearOffset_of_lt h hlt, Except.ok.injEq]
    constructor
    · rintro rfl
      exact ⟨rfl, hlt⟩
    · exact And.left
  · obtain ⟨k, -, -, -, hfault⟩ := linearOffset_of_le h hge
    rw [hfault]
    constructor
    · intro hok
      cases hok
    · rintro ⟨rfl, hlt⟩
      exact absurd hlt (Nat.not_lt.mpr hge)

/-- All positions are computed exactly if there are at most as many as there are index words. -/
theorem linearOffset_total_iff :
    (∀ ix : MultiIndex r, ix.InBounds d → ∃ p, ix.linearOffset d = .ok p) ↔ d ^ r ≤ Word.limit := by
  constructor
  · intro htotal
    by_contra hlarge
    have hlimit : Word.limit < d ^ r := Nat.not_le.mp hlarge
    have hix := inBounds_ofOffset hlimit
    obtain ⟨p, hp⟩ := htotal (ofOffset d r Word.limit) hix
    obtain ⟨hoffset, hlt⟩ := (linearOffset_eq_ok hix).mp hp
    rw [offset_ofOffset hlimit] at hoffset
    exact hlt.ne' hoffset
  · intro hlen ix hix
    exact ⟨ix.offset d, linearOffset_of_lt hix ((offset_lt hix).trans_le hlen)⟩

/-! ## Successors -/

theorem increment_of_inBounds (hdim : 0 < r → d < Word.limit) {ix : MultiIndex r} (h : ix.InBounds d) :
    (ix.increment d).1 = .ok (decide (ix.offset d + 1 < d ^ r)) := by
  obtain ⟨p, hp, rfl⟩ := h.exists_ofOffset
  rw [increment_ofOffset hdim hp, offset_ofOffset hp]
  by_cases hnext : p + 1 < d ^ r
  · rw [if_pos hnext, decide_eq_true hnext]
  · rw [if_neg hnext, decide_eq_false hnext]

/-! ## All of index arithmetic -/

/-- Counting the entries answers with their number if that is an index word, and else overflows in a
multiplication. The position of an index in bounds is the sum of its components, each times the size of a
block. However many entries there are, it is answered if it is an index word, and else overflows, in the first
step of Horner's rule that leaves the index words. Where an index word counts the entries, nothing faults:
neither positions and successors of indices in bounds, nor the indices at positions, nor a walk, at any of its
steps. The dimension or the rank may be zero. -/
theorem exact_or_overflow (d r : Nat) :
    storageLength d r =
      (if d ^ r < Word.limit then .ok (d ^ r) else .error (.overflow .multiplication)) ∧
    (∀ ix : MultiIndex r, ix.InBounds d →
      ix.offset d = ∑ k : Fin r, ix.component k * d ^ (r - 1 - k) ∧
      (ix.offset d < Word.limit → ix.linearOffset d = .ok (ix.offset d)) ∧
      (Word.limit ≤ ix.offset d →
        ∃ k < r, ix.partialOffset d k < Word.limit ∧ Word.limit ≤ ix.partialOffset d (k + 1) ∧
          ix.linearOffset d = .error (.overflow
            (if ix.partialOffset d k * d < Word.limit then .addition else .multiplication)))) ∧
    (d ^ r < Word.limit →
      (∀ ix : MultiIndex r, ix.InBounds d →
        ix.linearOffset d = .ok (ix.offset d) ∧
        (ix.increment d).1 = .ok (decide (ix.offset d + 1 < d ^ r))) ∧
      (∀ p < d ^ r, unravel d r p = .ok (ofOffset d r p)) ∧
      ∃ walk : Walk d r, Walk.start d r = .ok walk ∧
        ∀ j, ((fun w => (Walk.step w).2)^[j] walk).step.1 =
          .ok (if j < d ^ r then some (ofOffset d r j) else none)) := by
  refine ⟨storageLength_eq d r, fun ix hix => ⟨offset_eq_sum d ix, linearOffset_of_lt hix,
    linearOffset_of_le hix⟩, fun hlen => ?_⟩
  have hdim := dim_lt_limit hlen
  refine ⟨fun ix hix => ⟨?_, ?_⟩, fun p hp => unravel_of_lt hlen hp, .full d r, Walk.start_of_lt hlen,
    Walk.step_iterate_step hdim⟩
  · exact linearOffset_of_inBounds hlen hix
  · exact increment_of_inBounds hdim hix

/-- The last position that is an index word, where the number of entries is none; a position where adding the
last component overflows; a matrix with three rows; and dimension zero. -/
theorem exact_or_overflow_at_limit :
    (storageLength (2 ^ 32) 2 = .error (.overflow .multiplication) ∧
      ∃ ix : MultiIndex 2, ix.components = [2 ^ 32 - 1, 2 ^ 32 - 1] ∧ ix.InBounds (2 ^ 32) ∧
        ix.linearOffset (2 ^ 32) = .ok (2 ^ 64 - 1)) ∧
    (∃ ix : MultiIndex 2, ix.components = [2863311530, 2 ^ 32] ∧ ix.InBounds (3 * 2 ^ 31) ∧
      Word.limit ≤ ix.offset (3 * 2 ^ 31) ∧
      ix.linearOffset (3 * 2 ^ 31) = .error (.overflow .addition)) ∧
    (3 ^ 2 < Word.limit ∧ ∃ ix : MultiIndex 2, ix.components = [1, 2] ∧ ix.InBounds 3 ∧
      ix.linearOffset 3 = .ok 5 ∧ (ix.increment 3).1 = .ok true ∧ unravel 3 2 5 = .ok ix) ∧
    (0 ^ 3 < Word.limit ∧ ∃ walk : Walk 0 3, Walk.start 0 3 = .ok walk ∧ walk.step.1 = .ok none) := by
  obtain ⟨hlength, hpositions, -⟩ := exact_or_overflow (2 ^ 32) 2
  obtain ⟨-, hlarge, -⟩ := exact_or_overflow (3 * 2 ^ 31) 2
  have hthree : 3 ^ 2 < Word.limit := by decide
  obtain ⟨hindices, hunravel, -⟩ := (exact_or_overflow 3 2).2.2 hthree
  have hzero : 0 ^ 3 < Word.limit := by decide
  obtain ⟨-, -, walk, hwalk, hsteps⟩ := (exact_or_overflow 0 3).2.2 hzero
  refine ⟨⟨hlength, ⟨[2 ^ 32 - 1, 2 ^ 32 - 1], rfl⟩, rfl, by decide, ?_⟩,
    ⟨⟨[2863311530, 2 ^ 32], rfl⟩, rfl, by decide, by decide, ?_⟩,
    ⟨hthree, ⟨[1, 2], rfl⟩, rfl, by decide, ?_⟩, hzero, walk, hwalk, hsteps 0⟩
  · exact (hpositions _ (by decide)).2.1 (by decide)
  · obtain ⟨k, hk, -, hover, hfault⟩ := (hlarge ⟨[2863311530, 2 ^ 32], rfl⟩ (by decide)).2.2 (by decide)
    obtain rfl | rfl : k = 0 ∨ k = 1 := by omega
    · exact absurd hover (by decide)
    · exact hfault
  · obtain ⟨hoffset, hnext⟩ := hindices ⟨[1, 2], rfl⟩ (by decide)
    exact ⟨hoffset, hnext, hunravel 5 (by decide)⟩

end MultiIndex

end TensorMechanics
