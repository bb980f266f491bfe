import Mathlib
import TensorMechanics.MultiIndex.Traversal
import TensorMechanics.Proofs.MultiIndex.Offset

/-!
# Proofs: walks visit the positions in order

The successor of the index at position `p` is the index at position `p + 1`, and the last index is
followed by the first. So a walk over all indices is a run through the positions `0, …, d ^ r - 1`,
and folding along the walk is folding over the range of positions.

All that a successor needs is that the dimension is an index word, and without components not even
that. The number of indices may be too large for a word, as it may be in a contraction over many
axes.
-/

namespace TensorMechanics

variable {β : Type} {d r : Nat}

/-! ## The number of indices -/

theorem storageLength.grow_of_lt {len : Nat} (h : len * d ^ r < Word.limit) :
    storageLength.grow d r len = .ok (len * d ^ r) := by
  induction r generalizing len with
  | zero => simp [grow]
  | succ r ih =>
    have hassoc : len * d ^ (r + 1) = len * d * d ^ r := by rw [pow_succ']; ring
    rw [hassoc] at h ⊢
    have hmul : len * d < Word.limit := by
      rcases Nat.eq_zero_or_pos d with rfl | hd
      · simp [Word.limit]
      · exact (Nat.le_mul_of_pos_right (len * d) (Nat.pow_pos hd)).trans_lt h
    rw [grow, Word.mul_of_lt hmul]
    exact ih h

theorem storageLength.grow_of_le {len : Nat} (hlen : len < Word.limit)
    (h : Word.limit ≤ len * d ^ r) :
    storageLength.grow d r len = .error (.overflow .multiplication) := by
  induction r generalizing len with
  | zero => simp at h; omega
  | succ r ih =>
    have hassoc : len * d ^ (r + 1) = len * d * d ^ r := by rw [pow_succ']; ring
    rw [hassoc] at h
    rw [grow, Word.mul]
    by_cases hmul : len * d < Word.limit
    · rw [if_pos hmul]
      exact ih hmul h
    · rw [if_neg hmul]

theorem storageLength_of_lt (h : d ^ r < Word.limit) : storageLength d r = .ok (d ^ r) := by
  rw [storageLength, storageLength.grow_of_lt (by rwa [Nat.one_mul]), Nat.one_mul]

theorem storageLength_of_le (h : Word.limit ≤ d ^ r) :
    storageLength d r = .error (.overflow .multiplication) :=
  storageLength.grow_of_le (by decide) (by rwa [Nat.one_mul])

namespace MultiIndex

theorem unravel_of_lt (hlen : d ^ r < Word.limit) {p : Nat} (hp : p < d ^ r) :
    unravel d r p = .ok (ofOffset d r p) := by
  simp only [unravel, storageLength_of_lt hlen, Checked.ok_bind, if_pos hp, checkedDigits_of_lt hp,
    dif_pos (length_digits d r p), Checked.pure_eq_ok]
  rfl

/-! ## Successors -/

/-- A dimension is an index word if the number of entries is one and there is a component. -/
theorem dim_lt_limit (hlen : d ^ r < Word.limit) (hr : 0 < r) : d < Word.limit :=
  (Nat.le_self_pow hr.ne' d).trans_lt hlen

/-- Tensors of lower rank have no more entries. -/
theorem pow_lt_limit {s : Nat} (hlen : d ^ s < Word.limit) (hr : r ≤ s) : d ^ r < Word.limit := by
  rcases Nat.eq_zero_or_pos d with rfl | hd
  · exact (pow_le_one₀ le_rfl zero_le_one).trans_lt (by decide)
  · exact (Nat.pow_le_pow_right hd hr).trans_lt hlen

/-- Advancing the digits of a position: they become those of the next position, or all zero after
the last one, unless a digit plus one is no index word. -/
theorem advance_digits_or_fault {p : Nat} (hp : p < d ^ r) :
    ((0 < r ∧ Word.limit ≤ d) ∧ ∃ fault js, advance d (digits d r p) = (.error fault, js)) ∨
      advance d (digits d r p) =
        if p + 1 < d ^ r then (.ok true, digits d r (p + 1)) else (.ok false, digits d r 0) := by
  induction r generalizing p with
  | zero =>
    obtain rfl : p = 0 := by simpa using hp
    exact .inr rfl
  | succ r ih =>
    have hd : 0 < d := base_pos hp
    have hblock : 0 < d ^ r := Nat.pow_pos hd
    have hpow : d ^ (r + 1) = d * d ^ r := pow_succ' d r
    have hquot : p / d ^ r < d := Nat.div_lt_of_lt_mul (by rwa [pow_succ] at hp)
    have hrem : p % d ^ r < d ^ r := Nat.mod_lt p hblock
    have hsplit : p / d ^ r * d ^ r + p % d ^ r = p := Nat.div_add_mod' p (d ^ r)
    rw [digits_succ hp]
    obtain ⟨⟨-, hlimit⟩, fault, js, hfault⟩ | htail := ih hrem
    · exact .inl ⟨⟨r.succ_pos, hlimit⟩, fault, p / d ^ r :: js, by rw [advance, hfault]⟩
    rw [advance, htail]
    by_cases hcarry : p % d ^ r + 1 < d ^ r
    · -- the position moves on inside its block
      have hnext : p + 1 = p / d ^ r * d ^ r + (p % d ^ r + 1) := by omega
      have hlt : p + 1 < d ^ (r + 1) := by
        rw [hnext, hpow]
        exact Grid.mul_add_lt hquot hcarry
      have hdigits : digits d (r + 1) (p + 1) = p / d ^ r :: digits d r (p % d ^ r + 1) := by
        rw [digits_succ hlt, hnext, Nat.mul_comm, Nat.mul_add_div hblock, Nat.mul_add_mod,
          Nat.div_eq_of_lt hcarry, Nat.mod_eq_of_lt hcarry, Nat.add_zero]
      right
      rw [if_pos hcarry, if_pos hlt, hdigits]
    · -- the block is exhausted, and the first digit counts the blocks
      have hnext : p + 1 = (p / d ^ r + 1) * d ^ r := by rw [Nat.succ_mul]; omega
      rw [if_neg hcarry]
      by_cases hword : p / d ^ r + 1 < Word.limit
      swap
      · exact .inl ⟨⟨r.succ_pos, by omega⟩, _, _, by rw [Word.add, if_neg hword]⟩
      right
      simp only [Word.add_of_lt hword]
      by_cases hlast : p / d ^ r + 1 < d
      · have hlt : p + 1 < d ^ (r + 1) := by
          rw [hnext, hpow]
          exact Nat.mul_lt_mul_of_pos_right hlast hblock
        have hdigits : digits d (r + 1) (p + 1) = (p / d ^ r + 1) :: digits d r 0 := by
          rw [digits_succ hlt, hnext, Nat.mul_div_cancel _ hblock, Nat.mul_mod_left]
        rw [if_pos hlast, if_pos hlt, hdigits]
      · have hge : ¬ p + 1 < d ^ (r + 1) := by
          rw [hnext, hpow, Nat.not_lt]
          exact Nat.mul_le_mul_right _ (Nat.not_lt.mp hlast)
        rw [if_neg hlast, if_neg hge, digits_succ (Nat.pow_pos hd), Nat.zero_div, Nat.zero_mod]

theorem increment_of_advance {ix jx : MultiIndex r} {outcome : Checked Bool}
    (h : advance d ix.components = (outcome, jx.components)) : ix.increment d = (outcome, jx) := by
  simp only [increment, h]

/-- The successor of the index at a position, unless a component plus one is no index word. -/
theorem increment_ofOffset_or_fault {p : Nat} (hp : p < d ^ r) :
    ((0 < r ∧ Word.limit ≤ d) ∧ ∃ fault jx, (ofOffset d r p).increment d = (.error fault, jx)) ∨
      (ofOffset d r p).increment d =
        if p + 1 < d ^ r then (.ok true, ofOffset d r (p + 1)) else (.ok false, ofOffset d r 0) := by
  obtain ⟨hdim, fault, js, hfault⟩ | h := advance_digits_or_fault hp
  · have hanswer : ((ofOffset d r p).increment d).1 = .error fault := congrArg Prod.fst hfault
    exact .inl ⟨hdim, fault, _, Prod.ext hanswer rfl⟩
  · right
    split
    next hnext => exact increment_of_advance (h.trans (if_pos hnext))
    next hlast => exact increment_of_advance (h.trans (if_neg hlast))

theorem increment_ofOffset {p : Nat} (hdim : 0 < r → d < Word.limit) (hp : p < d ^ r) :
    (ofOffset d r p).increment d =
      if p + 1 < d ^ r then (.ok true, ofOffset d r (p + 1)) else (.ok false, ofOffset d r 0) :=
  (increment_ofOffset_or_fault hp).resolve_left fun h =>
    Nat.not_lt.mpr h.1.2 (hdim h.1.1)

/-- Advancing keeps components below the dimension, whatever the answer is. -/
theorem lt_of_mem_advance {is : List Nat} (h : ∀ i ∈ is, i < d) : ∀ i ∈ (advance d is).2, i < d := by
  induction is with
  | nil => simp [advance]
  | cons i is ih =>
    have hi : i < d := h i List.mem_cons_self
    have htail := ih fun j hj => h j (List.mem_cons_of_mem i hj)
    have hcons : ∀ j, j < d → ∀ k ∈ j :: (advance d is).2, k < d := by
      intro j hj k hk
      rcases List.mem_cons.mp hk with rfl | hk
      · exact hj
      · exact htail k hk
    unfold advance
    split
    next js hjs =>
      rw [hjs] at hcons
      split
      next j _ =>
        split
        next hj => exact hcons j hj
        next => exact hcons 0 (Nat.zero_lt_of_lt hi)
      next => exact hcons i hi
    next outcome js hjs =>
      rw [hjs] at hcons
      exact hcons i hi

theorem InBounds.increment {ix : MultiIndex r} (h : ix.InBounds d) : (ix.increment d).2.InBounds d :=
  lt_of_mem_advance h

theorem inBounds_zeros (h : 0 < d ^ r) : (zeros r).InBounds d := by
  rw [zeros_eq_ofOffset d r]
  exact inBounds_ofOffset h

end MultiIndex

namespace Walk

open MultiIndex

/-! ## Steps -/

/-- The walk over the indices from a position on. -/
def fromPosition (d r p : Nat) : Walk d r := ⟨ofOffset d r p, d ^ r - p⟩

theorem full_eq_fromPosition (d r : Nat) : full d r = fromPosition d r 0 := by
  rw [full, fromPosition, zeros_eq_ofOffset d r]
  rfl

/-- A step visits the index at the position of the walk and goes on to the next position. -/
theorem step_fromPosition (hdim : 0 < r → d < Word.limit) {p : Nat} (hp : p < d ^ r) :
    (fromPosition d r p).step = (.ok (some (ofOffset d r p)), fromPosition d r (p + 1)) := by
  have hleft : (fromPosition d r p).remaining ≠ 0 := by
    show d ^ r - p ≠ 0
    omega
  have hcount : d ^ r - p - 1 = d ^ r - (p + 1) := by omega
  rw [step, if_neg hleft]
  simp only [fromPosition, increment_ofOffset hdim hp, hcount]
  by_cases hnext : p + 1 < d ^ r
  · rw [if_pos hnext]
  · have hlast : p + 1 = d ^ r := by omega
    rw [if_neg hnext, hlast, ofOffset_pow]

/-- At the end, a walk stays where it is. -/
theorem step_fromPosition_of_le {p : Nat} (hp : d ^ r ≤ p) :
    (fromPosition d r p).step = (.ok none, fromPosition d r p) := by
  have hdone : (fromPosition d r p).remaining = 0 := Nat.sub_eq_zero_of_le hp
  rw [step, if_pos hdone]

/-- After `j` steps, a walk over all indices is at position `j`, or at the end. -/
theorem iterate_step (hdim : 0 < r → d < Word.limit) (j : Nat) :
    (fun w => (step w).2)^[j] (full d r) = fromPosition d r (min j (d ^ r)) := by
  induction j with
  | zero => rw [Nat.zero_min, ← full_eq_fromPosition, Function.iterate_zero_apply]
  | succ j ih =>
    rw [Function.iterate_succ_apply', ih]
    rcases Nat.lt_or_ge j (d ^ r) with hj | hj
    · rw [Nat.min_eq_left hj.le, step_fromPosition hdim hj, Nat.min_eq_left hj]
    · rw [Nat.min_eq_right hj, step_fromPosition_of_le le_rfl, Nat.min_eq_right (by omega)]

/-- What a walk over all indices answers after `j` steps. -/
theorem step_iterate_step (hdim : 0 < r → d < Word.limit) (j : Nat) :
    ((fun w => (step w).2)^[j] (full d r)).step.1 =
      .ok (if j < d ^ r then some (ofOffset d r j) else none) := by
  rw [iterate_step hdim]
  rcases Nat.lt_or_ge j (d ^ r) with hj | hj
  · rw [Nat.min_eq_left hj.le, step_fromPosition hdim hj, if_pos hj]
  · rw [Nat.min_eq_right hj, step_fromPosition_of_le le_rfl, if_neg (Nat.not_lt.mpr hj)]

/-! ## Folds along a walk -/

/-- Visiting `n` indices from position `p` on is going through the positions `p, …, p + n - 1`. -/
theorem foldFrom_ofOffset (f : β → MultiIndex r → Checked β) (hdim : 0 < r → d < Word.limit)
    (n : Nat) {p : Nat} (hp : p + n ≤ d ^ r) (init : β) :
    foldFrom d f n (ofOffset d r p) init =
      (List.range' p n).foldlM (fun acc q => f acc (ofOffset d r q)) init := by
  induction n generalizing p init with
  | zero => rfl
  | succ n ih =>
    rw [List.range'_succ, List.foldlM_cons, foldFrom]
    cases hstep : f init (ofOffset d r p) with
    | error fault => rfl
    | ok acc =>
      rw [Checked.ok_bind]
      simp only [increment_ofOffset hdim (show p < d ^ r by omega)]
      by_cases hnext : p + 1 < d ^ r
      · rw [if_pos hnext]
        exact ih (by omega) acc
      · obtain rfl : n = 0 := by omega
        rw [if_neg hnext]
        rfl

/-- Folding along the walk over all indices is folding over all positions. -/
theorem foldl_full (f : β → MultiIndex r → Checked β) (hdim : 0 < r → d < Word.limit) (init : β) :
    (full d r).foldl f init =
      (List.range (d ^ r)).foldlM (fun acc p => f acc (ofOffset d r p)) init := by
  rw [List.range_eq_range', ← foldFrom_ofOffset f hdim (d ^ r) (by omega), ← zeros_eq_ofOffset]
  rfl

/-- Going on until an index has no successor visits as many indices as there are from the first one
on. -/
theorem foldToLast_ofOffset (f : β → MultiIndex r → Checked β) (n : Nat) {p : Nat}
    (hp : p + (n + 1) = d ^ r) (init : β) :
    foldToLast d f (ofOffset d r p) init = foldFrom d f (n + 1) (ofOffset d r p) init := by
  induction n generalizing p init with
  | zero =>
    rw [foldToLast_eq, foldFrom]
    cases f init (ofOffset d r p) with
    | error fault => rfl
    | ok acc =>
      obtain ⟨-, fault, jx, hfault⟩ | hlast := increment_ofOffset_or_fault (show p < d ^ r by omega)
      · rw [hfault]
      · rw [hlast, if_neg (by omega)]
        rfl
  | succ n ih =>
    rw [foldToLast_eq, foldFrom]
    cases f init (ofOffset d r p) with
    | error fault => rfl
    | ok acc =>
      obtain ⟨-, fault, jx, hfault⟩ | hnext := increment_ofOffset_or_fault (show p < d ^ r by omega)
      · rw [hfault]
      · rw [hnext, if_pos (by omega)]
        exact ih (p := p + 1) (by omega) acc

/-- Where there are indices, visiting them up to the last one is visiting all of them. -/
theorem foldToLast_zeros (f : β → MultiIndex r → Checked β) (hpos : 0 < d ^ r) (init : β) :
    foldToLast d f (.zeros r) init = (full d r).foldl f init := by
  obtain ⟨n, hn⟩ := Nat.exists_eq_add_one.mpr hpos
  have hcount : (full d r).remaining = n + 1 := hn
  rw [foldl, hcount, zeros_eq_ofOffset d r, foldToLast_ofOffset f n (by omega), ← zeros_eq_ofOffset]
  rfl

/-- Two folds along a walk agree in a view if each pair of steps does, as long as an invariant of the
second one holds. -/
theorem map_foldFrom {γ : Type} {f : β → MultiIndex r → Checked β} {g : γ → MultiIndex r → Checked γ}
    (view : γ → β) (inv : γ → Prop)
    (hview : ∀ c ix, inv c → view <$> g c ix = f (view c) ix)
    (hinv : ∀ c ix c', inv c → g c ix = .ok c' → inv c') (m : Nat) (ix : MultiIndex r) {c : γ}
    (hc : inv c) : view <$> foldFrom d g m ix c = foldFrom d f m ix (view c) := by
  induction m generalizing ix c with
  | zero => rfl
  | succ m ih =>
    rw [foldFrom, foldFrom, ← hview c ix hc]
    cases hg : g c ix with
    | error fault => rfl
    | ok c' =>
      have hc' := hinv c ix c' hc hg
      rcases ix.increment d with ⟨outcome, successor⟩
      cases outcome with
      | error fault => rfl
      | ok _ => exact ih successor hc'

theorem start_of_lt (h : d ^ r < Word.limit) : start d r = .ok (full d r) := by
  rw [start, storageLength_of_lt h]
  rfl

theorem start_of_le (h : Word.limit ≤ d ^ r) :
    start d r = .error (.overflow .multiplication) := by
  rw [start, storageLength_of_le h]

/-- A fold faults if its first step does. -/
theorem foldl_full_of_error {f : β → MultiIndex r → Checked β} {init : β} {fault : Fault}
    (hpos : 0 < d ^ r) (h : f init (zeros r) = .error fault) :
    (full d r).foldl f init = .error fault := by
  obtain ⟨n, hn⟩ := Nat.exists_eq_succ_of_ne_zero hpos.ne'
  have hcount : (full d r).remaining = n + 1 := hn
  have hfirst : (full d r).next = zeros r := rfl
  rw [foldl, hcount, hfirst, foldFrom, h]

/-! ## Steps that agree in bounds -/

theorem foldFrom_congr {f g : β → MultiIndex r → Checked β}
    (h : ∀ acc ix, ix.InBounds d → f acc ix = g acc ix) (n : Nat) {ix : MultiIndex r}
    (hix : ix.InBounds d) (init : β) : foldFrom d f n ix init = foldFrom d g n ix init := by
  induction n generalizing ix init with
  | zero => rfl
  | succ n ih =>
    simp only [foldFrom, h init ix hix]
    split
    next => rfl
    next acc _ =>
      split
      next successor hsucc =>
        have hnext := hix.increment
        rw [hsucc] at hnext
        exact ih hnext acc
      next => rfl

/-- A fold along the walk over all indices only depends on what is done at indices in bounds. -/
theorem foldl_full_congr {f g : β → MultiIndex r → Checked β}
    (h : ∀ acc ix, ix.InBounds d → f acc ix = g acc ix) (init : β) :
    (full d r).foldl f init = (full d r).foldl g init := by
  rcases Nat.eq_zero_or_pos (d ^ r) with hempty | hpos
  · have hnone : (full d r).remaining = 0 := hempty
    rw [foldl, foldl, hnone, foldFrom, foldFrom]
  · exact foldFrom_congr h (d ^ r) (inBounds_zeros hpos) init

theorem allFrom_congr {p q : MultiIndex r → Checked Bool}
    (h : ∀ ix, ix.InBounds d → p ix = q ix) (n : Nat) {ix : MultiIndex r}
    (hix : ix.InBounds d) : allFrom d p n ix = allFrom d q n ix := by
  induction n generalizing ix with
  | zero => rfl
  | succ n ih =>
    simp only [allFrom, h ix hix]
    split
    next => rfl
    next => rfl
    next =>
      split
      next successor hsucc =>
        have hnext := hix.increment
        rw [hsucc] at hnext
        exact ih hnext
      next => rfl

theorem all_full_congr {p q : MultiIndex r → Checked Bool}
    (h : ∀ ix, ix.InBounds d → p ix = q ix) : (full d r).all p = (full d r).all q := by
  rcases Nat.eq_zero_or_pos (d ^ r) with hempty | hpos
  · have hnone : (full d r).remaining = 0 := hempty
    rw [all, all, hnone, allFrom, allFrom]
  · exact allFrom_congr h (d ^ r) (inBounds_zeros hpos)

/-! ## Tests along a walk -/

/-- A test along a walk passes over the positions where it holds. -/
theorem allFrom_add {test : MultiIndex r → Checked Bool} (hdim : 0 < r → d < Word.limit) {m p : Nat}
    (n : Nat) (hp : p + m ≤ d ^ r)
    (h : ∀ q, p ≤ q → q < p + m → test (ofOffset d r q) = .ok true) :
    allFrom d test (m + n) (ofOffset d r p) = allFrom d test n (ofOffset d r (p + m)) := by
  induction m generalizing p with
  | zero => rw [Nat.zero_add, Nat.add_zero]
  | succ m ih =>
    have hrest := ih (p := p + 1) (by omega) fun q hpq hq => h q (by omega) (by omega)
    rw [Nat.add_right_comm, allFrom, h p le_rfl (by omega)]
    simp only [increment_ofOffset hdim (show p < d ^ r by omega)]
    rw [← Nat.add_assoc, Nat.add_right_comm p m 1, ← hrest]
    by_cases hnext : p + 1 < d ^ r
    · rw [if_pos hnext]
    · have hlast : p + 1 = d ^ r := by omega
      rw [if_neg hnext, hlast, ofOffset_pow]

theorem all_full_of_forall {test : MultiIndex r → Checked Bool} (hdim : 0 < r → d < Word.limit)
    (h : ∀ p < d ^ r, test (ofOffset d r p) = .ok true) : (full d r).all test = .ok true := by
  have hpass := allFrom_add (p := 0) hdim 0 (Nat.zero_add _).le fun q _ hq => h q (by omega)
  rw [Nat.add_zero, ← zeros_eq_ofOffset] at hpass
  exact hpass

/-- The outcome of a test along a walk is that of the first position where it does not hold. -/
theorem all_full_of_first {test : MultiIndex r → Checked Bool} {q : Nat} {outcome : Checked Bool}
    (hdim : 0 < r → d < Word.limit) (hq : q < d ^ r)
    (hbefore : ∀ p < q, test (ofOffset d r p) = .ok true)
    (hstop : test (ofOffset d r q) = outcome) (hne : outcome ≠ .ok true) :
    (full d r).all test = outcome := by
  obtain ⟨n, hn⟩ := Nat.exists_eq_add_of_lt hq
  have hpass := allFrom_add (p := 0) hdim (n + 1) (show 0 + q ≤ d ^ r by omega)
    fun p _ hp => hbefore p (by omega)
  have hcount : (full d r).remaining = q + (n + 1) := hn
  rw [all, hcount]
  refine (zeros_eq_ofOffset d r ▸ hpass).trans ?_
  rw [Nat.zero_add, allFrom, hstop]
  rcases outcome with fault | answer
  · rfl
  · cases answer with
    | false => rfl
    | true => exact absurd rfl hne

end Walk

/-- Reading everything that a walk over all indices visits is reading at the positions in order. -/
theorem Traversal.toList_full (read : MultiIndex r → Checked β) (hlen : d ^ r < Word.limit) :
    (Traversal.mk read (Walk.full d r)).toList =
      (List.range (d ^ r)).mapM fun p => read (.ofOffset d r p) := by
  rw [toList, Traversal.foldl, Walk.foldl_full _ (MultiIndex.dim_lt_limit hlen),
    List.mapM_eq_reverse_foldlM_cons]

end TensorMechanics
