import Mathlib
import TensorMechanics.Proofs.MultiIndex.Walk
import TensorMechanics.Tensor

/-!
# Proofs: two enumerations of the indices

A traversal reaches every index from the one before it by carrying and stops by a counter. Building a
tensor unravels the positions one after the other by repeated division. Both go through the same
list, `MultiIndex.inOrder`: it holds every index in bounds once, in lexicographic order, the last
component varying fastest. So a function with effects is called at the same indices in the same
order by both.
-/

namespace TensorMechanics

variable {α β : Type} {d r : Nat}

namespace MultiIndex

/-- The indices of all positions, in order. -/
def inOrder (d r : Nat) : List (MultiIndex r) := (List.range (d ^ r)).map (ofOffset d r)

theorem getElem?_inOrder (p : Nat) :
    (inOrder d r)[p]? = if p < d ^ r then some (ofOffset d r p) else none := by
  rw [inOrder, List.getElem?_map]
  by_cases hp : p < d ^ r
  · rw [if_pos hp, List.getElem?_range hp, Option.map_some]
  · rw [if_neg hp, List.getElem?_eq_none (by simpa using hp), Option.map_none]

/-- The indices in order are exactly those in bounds. -/
theorem mem_inOrder {ix : MultiIndex r} : ix ∈ inOrder d r ↔ ix.InBounds d := by
  rw [inOrder, List.mem_map]
  constructor
  · rintro ⟨p, hp, rfl⟩
    exact inBounds_ofOffset (List.mem_range.mp hp)
  · intro h
    exact ⟨ix.offset d, List.mem_range.mpr (offset_lt h), ofOffset_offset h⟩

theorem pairwise_inOrder :
    (inOrder d r).Pairwise fun ix jx => ix.components < jx.components := by
  rw [inOrder, List.pairwise_map]
  refine List.pairwise_lt_range.imp_of_mem fun _ hq h => ?_
  exact digits_lt_digits h (List.mem_range.mp hq)

theorem nodup_inOrder : (inOrder d r).Nodup := by
  refine pairwise_inOrder.imp fun {ix jx} h heq => ?_
  rw [heq] at h
  exact List.lt_irrefl _ h

/-- Unravelling the positions in order never faults and gives the indices in order. -/
theorem mapM_unravel (hlen : d ^ r < Word.limit) :
    (List.range (d ^ r)).mapM (unravel d r) = .ok (inOrder d r) := by
  rw [Checked.mapM_eq_ok, inOrder, List.map_map]
  exact List.map_congr_left fun p hp => unravel_of_lt hlen (List.mem_range.mp hp)

end MultiIndex

open MultiIndex

/-! ## Traversals -/

namespace Traversal

section Position

variable (read : MultiIndex r → Checked β) {p : Nat}

/-- The traversal of the indices from a position on. -/
def fromPosition (d p : Nat) : Traversal d r β := ⟨read, .fromPosition d r p⟩

theorem start_of_lt (hlen : d ^ r < Word.limit) : start read = .ok (fromPosition read d 0) := by
  rw [start, Walk.start_of_lt hlen, Walk.full_eq_fromPosition]
  rfl

/-- The index at the position is consumed, also if its value cannot be read. -/
theorem next_fromPosition (hdim : 0 < r → d < Word.limit) (hp : p < d ^ r) :
    (fromPosition read d p).next = (some <$> read (ofOffset d r p), fromPosition read d (p + 1)) := by
  rw [next]
  simp only [fromPosition, Walk.step_fromPosition hdim hp]
  cases read (ofOffset d r p) with
  | error fault => rfl
  | ok x => rfl

theorem next_fromPosition_of_le (hp : d ^ r ≤ p) :
    (fromPosition read d p).next = (.ok none, fromPosition read d p) := by
  rw [next]
  simp only [fromPosition, Walk.step_fromPosition_of_le hp]

end Position

/-- Asking for the next value moves the walk one step, whatever reading does. -/
theorem next_snd (t : Traversal d r β) : t.next.2 = { t with walk := t.walk.step.2 } := by
  unfold next
  split
  next ix w h =>
    split
    · rw [h]
    · rw [h]
  next w h => rw [h]
  next fault w h => rw [h]

theorem iterate_next (t : Traversal d r β) (j : Nat) :
    (fun t => (next t).2)^[j] t = { t with walk := (fun w => w.step.2)^[j] t.walk } := by
  induction j with
  | zero => rfl
  | succ j ih => rw [Function.iterate_succ_apply', Function.iterate_succ_apply', ih, next_snd]

theorem length_iterate_next (read : MultiIndex r → Checked β) (hdim : 0 < r → d < Word.limit)
    (j : Nat) : ((fun t => (next t).2)^[j] ⟨read, .full d r⟩).length = d ^ r - j := by
  rw [iterate_next, Walk.iterate_step hdim]
  show d ^ r - min j (d ^ r) = d ^ r - j
  omega

/-- Behind `j` values, the traversal of all indices goes on at position `j`. -/
theorem next_iterate_next (read : MultiIndex r → Checked β) (hdim : 0 < r → d < Word.limit)
    (j : Nat) : ((fun t => (next t).2)^[j] ⟨read, .full d r⟩).next.1 =
      (inOrder d r)[j]?.mapM read := by
  rw [iterate_next, Walk.iterate_step hdim, getElem?_inOrder]
  rcases Nat.lt_or_ge j (d ^ r) with hj | hj
  · rw [Nat.min_eq_left hj.le, if_pos hj]
    exact congrArg Prod.fst (next_fromPosition read hdim hj)
  · rw [Nat.min_eq_right hj, if_neg (Nat.not_lt.mpr hj)]
    exact congrArg Prod.fst (next_fromPosition_of_le read le_rfl)

end Traversal

/-! ## Tensors built index by index -/

namespace Tensor

theorem ofFnM_eq_mapM {m : Type → Type} [Monad m] [LawfulMonad m] {n : Nat} (g : Fin n → m α) :
    List.ofFnM g = (List.finRange n).mapM g := by
  induction n with
  | zero => rw [List.ofFnM_zero, List.finRange_zero, List.mapM_nil]
  | succ n ih =>
    rw [List.ofFnM_succ, List.finRange_succ, List.mapM_cons, List.mapM_map]
    simp only [ih, Function.comp_def]

/-- Building a tensor runs the computation at the indices in order. -/
theorem toList_ofFnM {m : Type → Type} [Monad m] [LawfulMonad m] (f : MultiIndex r → m α) :
    toList <$> (ofFnM f : m (Tensor α d r)) = (inOrder d r).mapM f := by
  have hpositions : inOrder d r =
      (List.finRange (Nat.pow d r)).map fun p => ofOffset d r p.val := by
    rw [inOrder, ← List.map_coe_finRange_eq_range, List.map_map]
    rfl
  rw [hpositions, List.mapM_map, ← ofFnM_eq_mapM, ← Vector.toList_ofFnM, ofFnM]
  simp only [bind_pure_comp, Functor.map_map]
  rfl

theorem toList_ofFn (f : MultiIndex r → α) :
    (ofFn f : Tensor α d r).toList = (inOrder d r).map f := by
  apply List.ext_getElem
  · rw [length_toList, inOrder, List.length_map, List.length_map, List.length_range]
    rfl
  · intro p hp hp'
    simp [ofFn, toList, inOrder]

end Tensor

/-! ## Both enumerations -/

/-- Where the indices can be counted, a traversal yields what unravelling the positions in order
gives, and then nothing any more. The list has `d ^ r` items: every index in bounds, none twice,
in strictly increasing lexicographic order. Building a tensor makes the same calls as going through
this list and gives the same entries, for computations in any monad. -/
theorem indices_enumerate (hlen : d ^ r < Word.limit) :
    ∃ (t : Traversal d r (MultiIndex r)) (ixs : List (MultiIndex r)),
      Traversal.indices d r = .ok t ∧
      (∀ j, ((fun t => (Traversal.next t).2)^[j] t).next.1 = .ok ixs[j]? ∧
        ((fun t => (Traversal.next t).2)^[j] t).length = d ^ r - j) ∧
      t.toList = .ok ixs ∧
      (List.range (d ^ r)).mapM (unravel d r) = .ok ixs ∧
      ixs.length = d ^ r ∧
      (∀ ix : MultiIndex r, ix ∈ ixs ↔ ix.InBounds d) ∧
      ixs.Nodup ∧
      (ixs.Pairwise fun ix jx => ix.components < jx.components) ∧
      (∀ {α : Type} (f : MultiIndex r → α), (Tensor.ofFn f : Tensor α d r).toList = ixs.map f) ∧
      ∀ {m : Type → Type} [Monad m] [LawfulMonad m] {α : Type} (f : MultiIndex r → m α),
        Tensor.toList <$> (Tensor.ofFnM f : m (Tensor α d r)) = ixs.mapM f := by
  have hdim := MultiIndex.dim_lt_limit hlen
  refine ⟨⟨.ok, .full d r⟩, inOrder d r, ?_, fun j => ⟨?_, ?_⟩, ?_, mapM_unravel hlen, ?_,
    fun ix => mem_inOrder, nodup_inOrder, pairwise_inOrder, Tensor.toList_ofFn,
    Tensor.toList_ofFnM⟩
  · rw [Traversal.indices, Traversal.start, Walk.start_of_lt hlen]
  · rw [Traversal.next_iterate_next _ hdim]
    cases (inOrder d r)[j]? with
    | none => rfl
    | some ix => rfl
  · exact Traversal.length_iterate_next _ hdim j
  · rw [Traversal.toList_full _ hlen, Checked.mapM_eq_ok, inOrder, List.map_map]
    rfl
  · rw [inOrder, List.length_map, List.length_range]

/-- The indices of a matrix with two rows, and the numbers of the calls that build one. -/
theorem indices_enumerate_matrix :
    2 ^ 2 < Word.limit ∧ ∃ (t : Traversal 2 2 (MultiIndex 2)) (ixs : List (MultiIndex 2)),
      Traversal.indices 2 2 = .ok t ∧ t.toList = .ok ixs ∧
      ixs.map components = [[0, 0], [0, 1], [1, 0], [1, 1]] ∧
      Tensor.toList <$> (Tensor.ofFnM fun _ => modifyGet fun n => (n, n + 1) :
        StateM Nat (Tensor Nat 2 2)) = ixs.mapM fun _ => modifyGet fun n => (n, n + 1) := by
  have hlen : 2 ^ 2 < Word.limit := by decide
  obtain ⟨t, ixs, ht, -, hixs, hunravel, -, -, -, -, -, hbuild⟩ := indices_enumerate hlen
  refine ⟨hlen, t, ixs, ht, hixs, ?_, hbuild _⟩
  have hvalue : (List.range (2 ^ 2)).mapM (unravel 2 2) =
      .ok [⟨[0, 0], rfl⟩, ⟨[0, 1], rfl⟩, ⟨[1, 0], rfl⟩, ⟨[1, 1], rfl⟩] := rfl
  obtain rfl := Except.ok.inj (hvalue.symm.trans hunravel)
  rfl

end TensorMechanics
