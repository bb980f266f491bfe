import Mathlib
import TensorMechanics.Proofs.MultiIndex.Walk

/-!
# Proofs: positions as an order isomorphism

The indices in bounds, in lexicographic order, and the positions below `d ^ r`, in the order of numbers, are
the same order. One way is Horner's rule from the first component on, the other way repeated division from the
last one on, and both are computed without a fault where `d ^ r` is an index word. So the greatest index is at
the last position, and carrying advances any other index to the next position.
-/

namespace TensorMechanics.MultiIndex

variable {d r : Nat}

/-- The indices that address an entry. -/
abbrev Address (d r : Nat) : Type := { ix : MultiIndex r // ix.InBounds d }

/-- The lexicographic order: the first component that differs decides. -/
def Precedes (ix jx : Address d r) : Prop := ix.1.components < jx.1.components

theorem components_lt_of_offset_lt {ix jx : MultiIndex r} (hix : ix.InBounds d) (hjx : jx.InBounds d)
    (h : ix.offset d < jx.offset d) : ix.components < jx.components := by
  have hleft : digits d r (ix.offset d) = ix.components := congrArg components (ofOffset_offset hix)
  have hright : digits d r (jx.offset d) = jx.components := congrArg components (ofOffset_offset hjx)
  rw [← hleft, ← hright]
  exact digits_lt_digits h (offset_lt hjx)

theorem offset_lt_offset_iff {ix jx : MultiIndex r} (hix : ix.InBounds d) (hjx : jx.InBounds d) :
    ix.offset d < jx.offset d ↔ ix.components < jx.components := by
  refine ⟨components_lt_of_offset_lt hix hjx, fun h => ?_⟩
  rcases lt_trichotomy (ix.offset d) (jx.offset d) with hlt | heq | hgt
  · exact hlt
  · -- at one position there is one index only
    have hsame : ix = jx := by rw [← ofOffset_offset hix, heq, ofOffset_offset hjx]
    rw [hsame] at h
    exact absurd h (List.lt_irrefl _)
  · exact absurd h (List.lt_asymm (components_lt_of_offset_lt hjx hix hgt))

/-- The position of an index, as an isomorphism of orders. -/
def offsetIso (d r : Nat) :
    (Precedes : Address d r → Address d r → Prop) ≃r ((· < ·) : Fin (d ^ r) → Fin (d ^ r) → Prop) where
  toFun ix := ⟨ix.1.offset d, offset_lt ix.2⟩
  invFun p := ⟨ofOffset d r p, inBounds_ofOffset p.isLt⟩
  left_inv ix := Subtype.ext (ofOffset_offset ix.2)
  right_inv p := Fin.ext (offset_ofOffset p.isLt)
  map_rel_iff' {ix jx} := offset_lt_offset_iff ix.2 jx.2

theorem linearOffset_eq_offsetIso (hlen : d ^ r < Word.limit) (ix : Address d r) :
    ix.1.linearOffset d = .ok (offsetIso d r ix).val :=
  linearOffset_of_inBounds hlen ix.2

theorem unravel_eq_offsetIso_symm (hlen : d ^ r < Word.limit) (p : Fin (d ^ r)) :
    unravel d r p = .ok ((offsetIso d r).symm p).1 :=
  unravel_of_lt hlen p.isLt

/-! ## The last index -/

/-- An index is followed by another one exactly if its position is followed by another one. -/
theorem exists_precedes_iff (ix : Address d r) :
    (∃ jx, Precedes ix jx) ↔ (offsetIso d r ix).val + 1 < d ^ r := by
  constructor
  · rintro ⟨jx, hjx⟩
    have hlt : offsetIso d r ix < offsetIso d r jx := (offsetIso d r).map_rel_iff.mpr hjx
    have hbound := (offsetIso d r jx).isLt
    omega
  · intro hnext
    refine ⟨(offsetIso d r).symm ⟨offsetIso d r ix + 1, hnext⟩, (offsetIso d r).map_rel_iff.mp ?_⟩
    rw [RelIso.apply_symm_apply]
    exact Nat.lt_succ_self _

theorem increment_eq (hlen : d ^ r < Word.limit) (ix : Address d r) :
    ix.1.increment d =
      if (offsetIso d r ix).val + 1 < d ^ r then (.ok true, ofOffset d r (offsetIso d r ix + 1))
      else (.ok false, zeros r) := by
  have hstep := increment_ofOffset (dim_lt_limit hlen) (offsetIso d r ix).isLt
  have hix : ofOffset d r (offsetIso d r ix) = ix.1 := ofOffset_offset ix.2
  rwa [hix, ← zeros_eq_ofOffset] at hstep

/-- Where an index word counts the entries, the position of an index is an isomorphism from the indices in
bounds, in lexicographic order, to the positions, and unravelling is its inverse: neither faults, each undoes
the other, and an index before another one has the smaller position. An index that another one follows
advances to the index at the next position, with answer true. The last index advances to the first one, with
answer false. -/
theorem linearOffset_order_isomorphism (hlen : d ^ r < Word.limit) :
    (∀ ix : Address d r, ix.1.linearOffset d = .ok (offsetIso d r ix).val ∧
      (ix.1.linearOffset d >>= unravel d r) = .ok ix.1) ∧
    (∀ p : Fin (d ^ r), unravel d r p = .ok ((offsetIso d r).symm p).1 ∧
      (unravel d r p >>= fun ix => ix.linearOffset d) = .ok p.val) ∧
    (∀ ix jx : Address d r, Precedes ix jx ↔ offsetIso d r ix < offsetIso d r jx) ∧
    ∀ ix : Address d r,
      ((∃ jx, Precedes ix jx) → ∃ jx : Address d r, ix.1.increment d = (.ok true, jx.1) ∧
        (offsetIso d r jx).val = offsetIso d r ix + 1) ∧
      ((∀ jx, ¬ Precedes ix jx) → ix.1.increment d = (.ok false, zeros r)) := by
  refine ⟨fun ix => ⟨linearOffset_eq_offsetIso hlen ix, ?_⟩,
    fun p => ⟨unravel_eq_offsetIso_symm hlen p, ?_⟩,
    fun ix jx => (offsetIso d r).map_rel_iff.symm, fun ix => ⟨fun hnext => ?_, fun hlast => ?_⟩⟩
  · rw [linearOffset_eq_offsetIso hlen, Checked.ok_bind, unravel_eq_offsetIso_symm hlen,
      RelIso.symm_apply_apply]
  · rw [unravel_eq_offsetIso_symm hlen, Checked.ok_bind, linearOffset_eq_offsetIso hlen,
      RelIso.apply_symm_apply]
  · have hlt := (exists_precedes_iff ix).mp hnext
    refine ⟨(offsetIso d r).symm ⟨_, hlt⟩, ?_, ?_⟩
    · rw [increment_eq hlen, if_pos hlt]
      rfl
    · rw [RelIso.apply_symm_apply]
  · have hge := mt (exists_precedes_iff ix).mpr (not_exists.mpr hlast)
    rw [increment_eq hlen, if_neg hge]

/-- An index of a matrix with three rows whose last component carries, and the last index. -/
theorem linearOffset_order_isomorphism_matrix :
    3 ^ 2 < Word.limit ∧ ∃ ix jx last : Address 3 2, ix.1.components = [1, 2] ∧
      jx.1.components = [2, 0] ∧ last.1.components = [2, 2] ∧ ix.1.linearOffset 3 = .ok 5 ∧
      (ix.1.linearOffset 3 >>= unravel 3 2) = .ok ix.1 ∧ Precedes ix jx ∧
      ix.1.increment 3 = (.ok true, jx.1) ∧ jx.1.linearOffset 3 = .ok 6 ∧
      (∀ kx, ¬ Precedes last kx) ∧ last.1.increment 3 = (.ok false, zeros 2) := by
  let ix : Address 3 2 := ⟨⟨[1, 2], rfl⟩, by decide⟩
  let jx : Address 3 2 := ⟨⟨[2, 0], rfl⟩, by decide⟩
  let last : Address 3 2 := ⟨⟨[2, 2], rfl⟩, by decide⟩
  have hlen : 3 ^ 2 < Word.limit := by decide
  have hlast : ∀ kx, ¬ Precedes last kx :=
    not_exists.mp (mt (exists_precedes_iff last).mp (by decide))
  obtain ⟨hoffset, -, horder, hincrement⟩ := linearOffset_order_isomorphism hlen
  have hprecedes : Precedes ix jx := (horder ix jx).mpr (by decide)
  obtain ⟨kx, hkx, hnext⟩ := (hincrement ix).1 ⟨jx, hprecedes⟩
  obtain rfl : jx = kx := (offsetIso 3 2).injective (Fin.ext hnext.symm)
  exact ⟨hlen, ix, jx, last, rfl, rfl, rfl, (hoffset ix).1, (hoffset ix).2, hprecedes, hkx, (hoffset jx).1,
    hlast, (hincrement last).2 hlast⟩

end TensorMechanics.MultiIndex
