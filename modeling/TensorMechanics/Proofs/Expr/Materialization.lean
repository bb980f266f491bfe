import Mathlib
import TensorMechanics.Proofs.Expr.Evaluation

/-!
# Proofs: materialization is transparent

An expression that materializes has, at every index in bounds, the value that the tensor has there.
Evaluating an enclosing expression only asks for values in bounds, as long as it is itself evaluated
in bounds, so an expression inside may be replaced by its tensor. The replaced expression is
evaluated at spliced indices and many times over, the tensor once; the outcome is the same, be it a
value or a fault, and no law of arithmetic is needed.
-/

namespace TensorMechanics

variable {α : Type} {d r s : Nat}

/-- An expression of rank `r` with any number of holes for an expression of rank `s`. The other nodes
are those of expressions. -/
inductive Context (α : Type) (d s : Nat) : Nat → Type where
  | hole : Context α d s s
  | tensor {r : Nat} (t : Tensor α d r) : Context α d s r
  | scaled {r : Nat} (operand : Context α d s r) (alpha : α) : Context α d s r
  | sum {r : Nat} (left right : Context α d s r) : Context α d s r
  | difference {r : Nat} (left right : Context α d s r) : Context α d s r
  | outer {r₁ r₂ r : Nat} (h : r₁ + r₂ = r) (left : Context α d s r₁) (right : Context α d s r₂) :
      Context α d s r
  | contraction {r₁ r₂ r : Nat} (n : Nat) (h : ContractionShape r₁ r₂ n r)
      (left : Context α d s r₁) (right : Context α d s r₂) : Context α d s r

/-- The expression with the holes filled. -/
def Context.fill (e : Expr α d s) : {r : Nat} → Context α d s r → Expr α d r
  | _, .hole => e
  | _, .tensor t => .tensor t
  | _, .scaled operand alpha => .scaled (operand.fill e) alpha
  | _, .sum left right => .sum (left.fill e) (right.fill e)
  | _, .difference left right => .difference (left.fill e) (right.fill e)
  | _, .outer h left right => .outer h (left.fill e) (right.fill e)
  | _, .contraction n h left right => .contraction n h (left.fill e) (right.fill e)

namespace Expr

variable [Scalar α]

/-- Two expressions have the same outcome at every index in bounds. -/
def SameInBounds (e f : Expr α d r) : Prop :=
  ∀ ix : MultiIndex r, ix.InBounds d → e.evaluate ix = f.evaluate ix

/-- An expression and its tensor have the same values in bounds. -/
theorem sameInBounds_of_eval {e : Expr α d r} {t : Tensor α d r} (h : e.eval = .ok t) :
    e.SameInBounds (.tensor t) := by
  obtain ⟨hlen, hentries⟩ := eval_eq_ok.mp h
  intro ix hix
  obtain ⟨p, hp, rfl⟩ := hix.exists_ofOffset
  rw [hentries p hp, evaluate, t.read_ofOffset hlen hp]

/-- Filling the holes is a congruence: the index that reaches a hole is in bounds if the index of the
whole is. -/
theorem SameInBounds.fill {e f : Expr α d s} (h : e.SameInBounds f) (c : Context α d s r) :
    (c.fill e).SameInBounds (c.fill f) := by
  induction c with
  | hole => exact h
  | tensor t => exact fun _ _ => rfl
  | scaled operand alpha ih =>
    intro ix hix
    simp only [Context.fill, evaluate, ih ix hix]
  | sum left right ihl ihr =>
    intro ix hix
    simp only [Context.fill, evaluate, ihl ix hix, ihr ix hix]
  | difference left right ihl ihr =>
    intro ix hix
    simp only [Context.fill, evaluate, ihl ix hix, ihr ix hix]
  | outer hrank left right ihl ihr =>
    intro ix hix
    obtain ⟨hl, hr⟩ := (MultiIndex.inBounds_split hrank ix).mpr hix
    simp only [Context.fill, evaluate, ihl _ hl, ihr _ hr]
  | contraction n hshape left right ihl ihr =>
    intro ix hix
    simp only [Context.fill, evaluate, Contraction.valueAt_eq hshape]
    apply Walk.foldl_full_congr
    intro acc k hk
    obtain ⟨hl, hr⟩ := (hshape.inBounds_operands ix k).mpr ⟨hix, hk⟩
    rw [ihl _ hl, ihr _ hr]

/-! ## What only reads in bounds -/

theorem SameInBounds.eval {e f : Expr α d r} (h : e.SameInBounds f) : e.eval = f.eval := by
  rcases Nat.lt_or_ge (d ^ r) Word.limit with hlen | hlen
  · rw [eval_of_lt e hlen, eval_of_lt f hlen]
    congr 1
    rw [List.mapM_eq_reverse_foldlM_cons, List.mapM_eq_reverse_foldlM_cons]
    refine congrArg _ (Checked.foldlM_congr (fun p hp acc => ?_) [])
    rw [h _ (MultiIndex.inBounds_ofOffset (List.mem_range.mp hp))]
  · rw [eval_of_le e hlen, eval_of_le f hlen]

theorem SameInBounds.contractFull {e f e' f' : Expr α d r} (h : e.SameInBounds f)
    (h' : e'.SameInBounds f') : e.contractFull e' = f.contractFull f' := by
  rcases Nat.lt_or_ge (d ^ r) Word.limit with hlen | hlen
  · rw [Expr.contractFull, Expr.contractFull, Walk.start_of_lt hlen, Checked.ok_bind, Checked.ok_bind]
    apply Walk.foldl_full_congr
    intro acc ix hix
    rw [h ix hix, h' ix hix]
  · rw [contractFull_of_le e e' hlen, contractFull_of_le f f' hlen]

theorem SameInBounds.agree [BEq α] {e f e' f' : Expr α d r} (h : e.SameInBounds f)
    (h' : e'.SameInBounds f') : e.agree e' = f.agree f' := by
  unfold Expr.agree
  rcases Nat.lt_or_ge (d ^ r) Word.limit with hlen | hlen
  · rw [Walk.start_of_lt hlen, Checked.ok_bind, Checked.ok_bind]
    apply Walk.all_full_congr
    intro ix hix
    rw [h ix hix, h' ix hix]
  · rw [Walk.start_of_le hlen, Checked.error_bind, Checked.error_bind]

/-- An expression inside others may be replaced by its tensor, wherever and however often it occurs:
evaluating in bounds, materializing, contracting in full and comparing have the same outcome. -/
theorem replace_by_tensor [BEq α] {e : Expr α d s} {t : Tensor α d s} (h : e.eval = .ok t)
    (c c' : Context α d s r) :
    (∀ ix : MultiIndex r, ix.InBounds d →
        (c.fill (.tensor t)).evaluate ix = (c.fill e).evaluate ix) ∧
      (c.fill (.tensor t)).eval = (c.fill e).eval ∧
      (c.fill (.tensor t)).contractFull (c'.fill (.tensor t)) =
        (c.fill e).contractFull (c'.fill e) ∧
      (c.fill (.tensor t)).agree (c'.fill (.tensor t)) = (c.fill e).agree (c'.fill e) := by
  have hsame := sameInBounds_of_eval h
  have hc := hsame.fill c
  have hc' := hsame.fill c'
  exact ⟨fun ix hix => (hc ix hix).symm, hc.eval.symm, (hc.contractFull hc').symm,
    (hc.agree hc').symm⟩

attribute [local instance] Scalar.exact

/-- The sum of two vectors, in a dyad whose both factors are holes. -/
theorem replace_by_tensor_in_dyad :
    (sum (.tensor (⟨#v[1, 2]⟩ : Tensor Int 2 1)) (.tensor ⟨#v[3, 5]⟩)).eval = .ok ⟨#v[4, 7]⟩ ∧
      (Context.fill (.tensor (⟨#v[4, 7]⟩ : Tensor Int 2 1))
          (.outer dyadRank .hole .hole)).evaluate ⟨[0, 1], rfl⟩ =
        (Context.fill (sum (.tensor (⟨#v[1, 2]⟩ : Tensor Int 2 1)) (.tensor ⟨#v[3, 5]⟩))
          (.outer dyadRank .hole .hole)).evaluate ⟨[0, 1], rfl⟩ := by
  have h : (sum (.tensor (⟨#v[1, 2]⟩ : Tensor Int 2 1)) (.tensor ⟨#v[3, 5]⟩)).eval =
      .ok ⟨#v[4, 7]⟩ := rfl
  have hreplace := replace_by_tensor h (.outer dyadRank .hole .hole) (.outer dyadRank .hole .hole)
  exact ⟨h, hreplace.1 ⟨[0, 1], rfl⟩ (by decide)⟩

end Expr

end TensorMechanics
