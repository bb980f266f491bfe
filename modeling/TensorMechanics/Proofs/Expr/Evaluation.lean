import Mathlib
import TensorMechanics.Expr.Evaluate
import TensorMechanics.Proofs.MultiIndex.Walk

/-!
# Proofs: evaluating expressions

What one evaluation does, in terms of positions. Reading a tensor at an index in bounds answers with
the entry at its position. A contraction whose ranks fit never copies a run of the wrong length, so
its value is a fold over the contracted indices. Materializing an expression evaluates it at the
positions in order, and so answers exactly if every one of these evaluations does.
-/

namespace TensorMechanics

variable {α : Type} {d r r₁ r₂ n : Nat}

/-! ## Reading a tensor -/

namespace Tensor

/-- The entries of a tensor of rank `r₁ + r₂` fill rows of length `d ^ r₂`. -/
theorem rows_mul_columns (h : r₁ + r₂ = r) : d ^ r₁ * d ^ r₂ = Nat.pow d r := by
  rw [← pow_add, h]
  rfl

theorem read_ofOffset (t : Tensor α d r) {p : Nat} (hlen : d ^ r < Word.limit) (hp : p < d ^ r) :
    t.read (.ofOffset d r p) = .ok t.entries[p] := by
  simp only [read, MultiIndex.linearOffset_ofOffset hlen hp]
  exact dif_pos hp

theorem read_of_not_inBounds (t : Tensor α d r) {ix : MultiIndex r} (h : ¬ ix.InBounds d) :
    t.read ix = .error (.indexOutOfBounds ix.components d) := by
  simp only [read, MultiIndex.linearOffset_of_not_inBounds h]

theorem ofListOrFault_eq_ok {xs : List α} {t : Tensor α d r} :
    ofListOrFault d r xs = .ok t ↔ xs = t.toList := by
  rw [← ofList_eq_ok, ofListOrFault]
  cases ofList d r xs with
  | ok u => simp
  | error e => simp

end Tensor

/-! ## The operands of a contraction -/

namespace ContractionShape

/-- The index of the left operand: the free components, then the contracted ones. -/
def leftIndex (h : ContractionShape r₁ r₂ n r) (ix : MultiIndex r) (k : MultiIndex n) :
    MultiIndex r₁ where
  components := ix.components.take (r₁ - n) ++ k.components
  length_components := by
    have := h.le_left
    have := h.le_right
    have := h.rank
    rw [List.length_append, List.length_take, ix.length_components, k.length_components]
    omega

/-- The index of the right operand: the contracted components, then the free ones. -/
def rightIndex (h : ContractionShape r₁ r₂ n r) (ix : MultiIndex r) (k : MultiIndex n) :
    MultiIndex r₂ where
  components := k.components ++ ix.components.drop (r₁ - n)
  length_components := by
    have := h.le_left
    have := h.le_right
    have := h.rank
    rw [List.length_append, List.length_drop, ix.length_components, k.length_components]
    omega

/-- Where the ranks fit, no run of components is too short, too long or missing. -/
theorem operandIndices_eq (h : ContractionShape r₁ r₂ n r) (ix : MultiIndex r) (k : MultiIndex n) :
    Contraction.operandIndices r₁ r₂ ix k = .ok (h.leftIndex ix k, h.rightIndex ix k) := by
  have hleft := h.le_left
  have hright := h.le_right
  have hrank := h.rank
  have hdrop : (ix.components.drop (r₁ - n)).length = r₂ - n := by
    rw [List.length_drop, ix.length_components]
    omega
  have hrow : ¬ r < r₁ - n := by omega
  have hcol : ¬ r₂ < n := by omega
  have hrun : Contraction.copyRun (r₂ - n) (ix.components.drop (r₁ - n)) =
      .ok (ix.components.drop (r₁ - n)) := if_pos hdrop
  have hl : Contraction.ofRun r₁ (ix.components.take (r₁ - n) ++ k.components) =
      .ok (h.leftIndex ix k) := dif_pos (h.leftIndex ix k).length_components
  have hr : Contraction.ofRun r₂ (k.components ++ ix.components.drop (r₁ - n)) =
      .ok (h.rightIndex ix k) := dif_pos (h.rightIndex ix k).length_components
  simp only [Contraction.operandIndices, Word.sub_of_le hleft, Checked.ok_bind, if_neg hrow,
    if_neg hcol, hrun, hl, hr, Checked.pure_eq_ok]

/-- Every component of the result index and of the contracted index reaches an operand, and nothing
else does. -/
theorem inBounds_operands (h : ContractionShape r₁ r₂ n r) (ix : MultiIndex r) (k : MultiIndex n) :
    (h.leftIndex ix k).InBounds d ∧ (h.rightIndex ix k).InBounds d ↔
      ix.InBounds d ∧ k.InBounds d := by
  have hix : ix.InBounds d ↔ (∀ i ∈ ix.components.take (r₁ - n), i < d) ∧
      ∀ i ∈ ix.components.drop (r₁ - n), i < d := by
    rw [← List.forall_mem_append, List.take_append_drop]
    rfl
  rw [hix]
  simp only [MultiIndex.InBounds, leftIndex, rightIndex, List.forall_mem_append]
  tauto

end ContractionShape

/-- The value of a contraction whose ranks fit, as a fold over the contracted indices. -/
theorem Contraction.valueAt_eq [Scalar α] (h : ContractionShape r₁ r₂ n r)
    (left : MultiIndex r₁ → Checked α) (right : MultiIndex r₂ → Checked α) (ix : MultiIndex r) :
    Contraction.valueAt d n left right ix =
      (Walk.full d n).foldl (fun acc k => do
        let x ← left (h.leftIndex ix k)
        let y ← right (h.rightIndex ix k)
        Scalar.add acc (← Scalar.mul x y)) Scalar.zero := by
  simp only [valueAt, h.operandIndices_eq, Checked.ok_bind]

/-! ## Materialization -/

namespace Expr

variable [Scalar α]

theorem eval_of_lt (e : Expr α d r) (hlen : d ^ r < Word.limit) :
    e.eval = ((List.range (d ^ r)).mapM fun p => e.evaluate (.ofOffset d r p)) >>=
      Tensor.ofListOrFault d r := by
  have hstart : e.traversal = .ok ⟨e.evaluate, .full d r⟩ := by
    rw [traversal, Traversal.start, Walk.start_of_lt hlen]
  rw [eval, hstart, Checked.ok_bind, Traversal.toList_full _ hlen]

/-- A tensor that is too large cannot be materialized: counting its entries faults. -/
theorem eval_of_le (e : Expr α d r) (hlen : Word.limit ≤ d ^ r) :
    e.eval = .error (.overflow .multiplication) := by
  have hstart : e.traversal = .error (.overflow .multiplication) := by
    rw [traversal, Traversal.start, Walk.start_of_le hlen]
  rw [eval, hstart, Checked.error_bind]

/-- Materializing evaluates at the positions in order, and the values are the entries. -/
theorem toList_eval (e : Expr α d r) (hlen : d ^ r < Word.limit) :
    Tensor.toList <$> e.eval = (List.range (d ^ r)).mapM fun p => e.evaluate (.ofOffset d r p) := by
  rw [eval_of_lt e hlen]
  cases hvalues : (List.range (d ^ r)).mapM fun p => e.evaluate (.ofOffset d r p) with
  | error fault => rfl
  | ok xs =>
    have hlength : xs.length = Nat.pow d r := by
      have hmap := congrArg List.length (Checked.mapM_eq_ok.mp hvalues)
      rw [List.length_map, List.length_map, List.length_range] at hmap
      exact hmap.symm
    have htensor : Tensor.ofListOrFault d r xs = .ok (.ofLength xs hlength) :=
      Tensor.ofListOrFault_eq_ok.mpr (Tensor.toList_ofLength xs hlength).symm
    rw [Checked.ok_bind, htensor]
    exact congrArg Except.ok (Tensor.toList_ofLength xs hlength)

theorem contractFull_of_le (e f : Expr α d r) (hlen : Word.limit ≤ d ^ r) :
    e.contractFull f = .error (.overflow .multiplication) := by
  rw [contractFull, Walk.start_of_le hlen, Checked.error_bind]

/-- Materializing answers with a tensor exactly if its entry at each position is the value there. -/
theorem eval_eq_ok {e : Expr α d r} {t : Tensor α d r} :
    e.eval = .ok t ↔
      d ^ r < Word.limit ∧
        ∀ p (_ : p < d ^ r), e.evaluate (.ofOffset d r p) = .ok t.entries[p] := by
  rcases Nat.lt_or_ge (d ^ r) Word.limit with hlen | hlen
  · rw [eval_of_lt e hlen, Checked.bind_eq_ok]
    simp only [Tensor.ofListOrFault_eq_ok, exists_eq_right, hlen, true_and]
    rw [Checked.mapM_eq_ok]
    constructor
    · intro h p hp
      have hp' := congrArg (fun xs => xs[p]?) h
      simpa [hp, Tensor.toList] using hp'
    · intro h
      refine List.ext_getElem (by simp) fun p hp _ => ?_
      rw [List.length_map, List.length_range] at hp
      simpa [Tensor.toList] using h p hp
  · rw [eval_of_le e hlen]
    simp [Nat.not_lt.mpr hlen]

end Expr

end TensorMechanics
