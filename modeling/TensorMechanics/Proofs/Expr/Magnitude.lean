import Mathlib
import TensorMechanics.Proofs.Expr.Formula

/-!
# Proofs: expressions over bounded integers

An evaluation over bounded integers either has the exact value of the formula or stops because an
integer leaves the range. It cannot stop if the magnitudes are small: the greatest absolute values of
the entries bound the value of every node, and if these bounds are in the range, so is every number
on the way. In a contraction these are the partial sums, and after `j` terms a partial sum is at most
`j` times the bound of a term.
-/

namespace TensorMechanics

variable {range : IntRange} {d r : Nat}

/-! ## Bounds -/

/-- The greatest absolute value of an entry. -/
def Tensor.maxAbs (t : Tensor (Bounded range) d r) : Nat :=
  (t.toList.map fun x => x.val.natAbs).foldr max 0

theorem Tensor.natAbs_le_maxAbs (t : Tensor (Bounded range) d r) {x : Bounded range}
    (hx : x ∈ t.toList) : x.val.natAbs ≤ t.maxAbs := by
  rw [maxAbs]
  generalize t.toList = xs at hx
  induction xs with
  | nil => cases hx
  | cons y ys ih =>
    rw [List.map_cons, List.foldr_cons]
    rcases List.mem_cons.mp hx with rfl | hx
    · exact le_max_left _ _
    · exact (ih hx).trans (le_max_right _ _)

namespace Expr

/-- A bound for the absolute values of an expression. -/
def bound : {r : Nat} → Expr (Bounded range) d r → Nat
  | _, .tensor t => t.maxAbs
  | _, .scaled operand alpha => operand.bound * alpha.val.natAbs
  | _, .sum left right => left.bound + right.bound
  | _, .difference left right => left.bound + right.bound
  | _, .outer _ left right => left.bound * right.bound
  | _, .contraction n _ left right => d ^ n * (left.bound * right.bound)

/-- The bounds of all nodes of an expression are in the range. -/
def Fits : {r : Nat} → Expr (Bounded range) d r → Prop
  | _, .tensor t => (t.maxAbs : Int) ≤ range.hi
  | _, e@(.scaled operand _) => operand.Fits ∧ (e.bound : Int) ≤ range.hi
  | _, e@(.sum left right) => left.Fits ∧ right.Fits ∧ (e.bound : Int) ≤ range.hi
  | _, e@(.difference left right) => left.Fits ∧ right.Fits ∧ (e.bound : Int) ≤ range.hi
  | _, e@(.outer _ left right) => left.Fits ∧ right.Fits ∧ (e.bound : Int) ≤ range.hi
  | _, e@(.contraction _ _ left right) => left.Fits ∧ right.Fits ∧ (e.bound : Int) ≤ range.hi

end Expr

/-! ## Evaluation within the bounds -/

/-- Another term of a contraction of `terms` terms: after `j` terms the partial sum is within `j`
times the bound of a term, and this stays so. -/
theorem Contraction.exists_add_term (hrange : range.lo ≤ -range.hi) {j terms b c : Nat}
    (hj : j < terms) (hbound : ((terms * (b * c) : Nat) : Int) ≤ range.hi) {acc x y : Bounded range}
    (hacc : acc.val.natAbs ≤ j * (b * c)) (hx : x.val.natAbs ≤ b) (hy : y.val.natAbs ≤ c) :
    ∃ z, (do Scalar.add acc (← Scalar.mul x y)) = .ok z ∧ z.val.natAbs ≤ (j + 1) * (b * c) := by
  have hall : (j + 1) * (b * c) ≤ terms * (b * c) := Nat.mul_le_mul_right _ hj
  have hsplit : (j + 1) * (b * c) = j * (b * c) + b * c := Nat.succ_mul j (b * c)
  obtain ⟨xy, hxy, hxyb⟩ := Bounded.exists_mul_of_natAbs_le hrange hx hy (by omega)
  obtain ⟨z, hz, hzb⟩ := Bounded.exists_add_of_natAbs_le hrange hacc hxyb (by omega)
  exact ⟨z, by rw [hxy, Checked.ok_bind, hz], hsplit ▸ hzb⟩

namespace Expr

/-- If the bounds of all nodes are in the range, an evaluation in bounds answers, with a value within
the bound. -/
theorem exists_evaluate_of_fits (hrange : range.lo ≤ -range.hi) {e : Expr (Bounded range) d r}
    (he : e.Addressable) (hfits : e.Fits) {ix : MultiIndex r} (hix : ix.InBounds d) :
    ∃ x, e.evaluate ix = .ok x ∧ x.val.natAbs ≤ e.bound := by
  induction e with
  | tensor t =>
    obtain ⟨p, hp, rfl⟩ := hix.exists_ofOffset
    refine ⟨t.entries[p], t.read_ofOffset he hp, t.natAbs_le_maxAbs ?_⟩
    simp [Tensor.toList]
  | scaled operand alpha ih =>
    obtain ⟨hfits, hbound⟩ := hfits
    obtain ⟨x, hx, hxb⟩ := ih he hfits hix
    obtain ⟨y, hy, hyb⟩ := Bounded.exists_mul_of_natAbs_le hrange hxb le_rfl hbound
    exact ⟨y, by rw [evaluate, hx, Checked.ok_bind, hy], hyb⟩
  | sum left right ihl ihr =>
    obtain ⟨hfl, hfr, hbound⟩ := hfits
    refine Checked.exists_bind₂ (ihl he.1 hfl hix) (ihr he.2 hfr hix) fun x y hx hy => ?_
    exact Bounded.exists_add_of_natAbs_le hrange hx hy hbound
  | difference left right ihl ihr =>
    obtain ⟨hfl, hfr, hbound⟩ := hfits
    refine Checked.exists_bind₂ (ihl he.1 hfl hix) (ihr he.2 hfr hix) fun x y hx hy => ?_
    exact Bounded.exists_sub_of_natAbs_le hrange hx hy hbound
  | outer h left right ihl ihr =>
    obtain ⟨hfl, hfr, hbound⟩ := hfits
    obtain ⟨hl, hr⟩ := (MultiIndex.inBounds_split h ix).mpr hix
    refine Checked.exists_bind₂ (ihl he.1 hfl hl) (ihr he.2 hfr hr) fun x y hx hy => ?_
    exact Bounded.exists_mul_of_natAbs_le hrange hx hy hbound
  | @contraction r₁ r₂ r n h left right ihl ihr =>
    obtain ⟨hfl, hfr, hbound⟩ := hfits
    have hdim : d < Word.limit := he.1.dim_lt_limit (h.pos.trans h.le_left)
    rw [evaluate, Contraction.valueAt_eq h, Walk.foldl_full _ fun _ => hdim]
    -- every prefix of the sum has to fit, so the loop carries a bound that grows with it
    let partialSum := fun (j : Nat) (acc : Bounded range) =>
      acc.val.natAbs ≤ j * (left.bound * right.bound)
    have hzero : partialSum 0 Scalar.zero := Nat.zero_le _
    refine Checked.exists_foldlM_range partialSum (fun j hj acc hacc => ?_) hzero
    have hk := MultiIndex.inBounds_ofOffset hj
    obtain ⟨hl, hr⟩ := (h.inBounds_operands ix (.ofOffset d n j)).mpr ⟨hix, hk⟩
    refine Checked.exists_bind₂ (ihl he.1 hfl hl) (ihr he.2 hfr hr) fun x y hx hy => ?_
    exact Contraction.exists_add_term hrange hj hbound hacc hx hy

/-- An evaluation over bounded integers has the value of the formula if it answers. In a range that
holds the negatives of its members, it answers if the bounds of all nodes are in the range. -/
theorem evaluate_refines_formula {e : Expr (Bounded range) d r} (he : e.Addressable)
    {ix : MultiIndex r} (hix : ix.InBounds d) :
    (∀ x, e.evaluate ix = .ok x → x.val = e.formula Bounded.val ix) ∧
      (range.lo ≤ -range.hi → e.Fits → ∃ x, e.evaluate ix = .ok x) := by
  constructor
  · intro x hx
    exact val_of_evaluate (Bounded.exactView range) he hix hx
  · intro hrange hfits
    obtain ⟨x, hx, -⟩ := exists_evaluate_of_fits hrange he hfits hix
    exact ⟨x, hx⟩

/-- The dyad of a vector, applied to the vector, over numbers of 64 bits. -/
theorem evaluate_refines_formula_dyadAction :
    ∃ v : Tensor (Bounded .signed64) 2 1, v.toList.map Bounded.val = [-3, 5] ∧
      (dyadAction v).Addressable ∧ IntRange.signed64.lo ≤ -IntRange.signed64.hi ∧
      (dyadAction v).Fits ∧
      ∃ x, (dyadAction v).evaluate ⟨[0], rfl⟩ = .ok x ∧ x.val = -102 := by
  let v : Tensor (Bounded .signed64) 2 1 := ⟨#v[⟨-3, by decide, by decide⟩, ⟨5, by decide, by decide⟩]⟩
  have he : (dyadAction v).Addressable := by simp [dyadAction, Addressable, Word.limit]
  have hrange : IntRange.signed64.lo ≤ -IntRange.signed64.hi := by decide
  have hfits : (dyadAction v).Fits := by
    have hmax : v.maxAbs = 5 := by decide
    simp only [dyadAction, Fits, bound, hmax]
    decide
  have hix : (⟨[0], rfl⟩ : MultiIndex 1).InBounds 2 := by decide
  have hrefines := evaluate_refines_formula he hix
  obtain ⟨x, hx⟩ := hrefines.2 hrange hfits
  have hvalue : (dyadAction v).formula Bounded.val ⟨[0], rfl⟩ = -102 := by decide
  exact ⟨v, rfl, he, hrange, hfits, x, hx, (hrefines.1 x hx).trans hvalue⟩

end Expr

end TensorMechanics
