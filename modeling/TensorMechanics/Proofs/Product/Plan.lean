import Mathlib
import TensorMechanics.Product.Plan

/-!
# Proofs: complete plans

A plan is complete if it leaves out only blocks without terms. The plans that are built for given
sizes are complete, for every leaf size and every depth: `Plan.build` skips a block only if one of
its sides is empty. They fork the cuts on the first `depth` levels and no others, fewer than
`2 ^ depth` in all, so a plan of depth zero does not fork.
-/

namespace TensorMechanics.Product

/-- Only blocks with an empty side are left out. -/
def Plan.Complete {m k n : Nat} : Plan m k n → Prop
  | .skip => m = 0 ∨ n = 0 ∨ k = 0
  | .leaf => True
  | .rows _ _ _ _ top bottom => top.Complete ∧ bottom.Complete
  | .columns _ _ _ _ left right => left.Complete ∧ right.Complete
  | .inner _ _ _ _ first second => first.Complete ∧ second.Complete

/-- A block that is left out and has an entry has no terms. -/
theorem Plan.Complete.terms_eq_nil {m k n : Nat} (h : (Plan.skip : Plan m k n).Complete)
    (i : Fin m) (j : Fin n) {β : Type} {terms : List β} (hterms : terms.length = k) : terms = [] := by
  rcases h with rfl | rfl | rfl
  · exact i.elim0
  · exact j.elim0
  · exact List.length_eq_zero_iff.mp hterms

theorem Plan.complete_build (leafSize depth m k n : Nat) :
    (build leafSize depth m k n).Complete := by
  fun_induction build leafSize depth m k n with
  | case1 depth m k n hempty => exact hempty
  | case2 => trivial
  | case3 depth m k n _ _ _ ihTop ihBottom => exact ⟨ihTop, ihBottom⟩
  | case4 depth m k n _ _ _ _ ihLeft ihRight => exact ⟨ihLeft, ihRight⟩
  | case5 depth m k n _ _ _ _ ihFirst ihSecond => exact ⟨ihFirst, ihSecond⟩

/-! ## Forks -/

/-- A cut with halves of few forks has few forks. -/
theorem forks_cut_lt {depth first second : Nat} (hfirst : first < 2 ^ (depth - 1))
    (hsecond : second < 2 ^ (depth - 1)) :
    (decide (0 < depth)).toNat + first + second < 2 ^ depth := by
  cases depth with
  | zero =>
    simp at hfirst hsecond ⊢
    omega
  | succ depth =>
    simp only [Nat.add_sub_cancel] at hfirst hsecond
    simp only [Nat.zero_lt_succ, decide_true, Bool.toNat_true, pow_succ]
    omega

/-- A cut is forked exactly if it is on one of the first `depth` levels of cuts. -/
def Plan.ForkedTo {m k n : Nat} : Plan m k n → (depth : Nat) → Prop
  | .skip, _ => True
  | .leaf, _ => True
  | .rows _ _ _ forked top bottom, depth =>
    forked = decide (0 < depth) ∧ top.ForkedTo (depth - 1) ∧ bottom.ForkedTo (depth - 1)
  | .columns _ _ _ forked left right, depth =>
    forked = decide (0 < depth) ∧ left.ForkedTo (depth - 1) ∧ right.ForkedTo (depth - 1)
  | .inner _ _ _ forked first second, depth =>
    forked = decide (0 < depth) ∧ first.ForkedTo (depth - 1) ∧ second.ForkedTo (depth - 1)

theorem Plan.forkedTo_build (leafSize depth m k n : Nat) :
    (build leafSize depth m k n).ForkedTo depth := by
  fun_induction build leafSize depth m k n with
  | case1 => trivial
  | case2 => trivial
  | case3 depth m k n _ _ _ ihTop ihBottom => exact ⟨rfl, ihTop, ihBottom⟩
  | case4 depth m k n _ _ _ _ ihLeft ihRight => exact ⟨rfl, ihLeft, ihRight⟩
  | case5 depth m k n _ _ _ _ ihFirst ihSecond => exact ⟨rfl, ihFirst, ihSecond⟩

/-- Cuts on the first `depth` levels are at most those of a full binary tree. -/
theorem Plan.ForkedTo.forks_lt {depth m k n : Nat} {plan : Plan m k n} (h : plan.ForkedTo depth) :
    plan.forks < 2 ^ depth := by
  induction plan generalizing depth with
  | skip => exact Nat.two_pow_pos depth
  | leaf => exact Nat.two_pow_pos depth
  | rows m₁ m₂ hm forked top bottom ihTop ihBottom =>
    obtain ⟨rfl, htop, hbottom⟩ := h
    exact forks_cut_lt (ihTop htop) (ihBottom hbottom)
  | columns n₁ n₂ hn forked left right ihLeft ihRight =>
    obtain ⟨rfl, hleft, hright⟩ := h
    exact forks_cut_lt (ihLeft hleft) (ihRight hright)
  | inner k₁ k₂ hk forked first second ihFirst ihSecond =>
    obtain ⟨rfl, hfirst, hsecond⟩ := h
    exact forks_cut_lt (ihFirst hfirst) (ihSecond hsecond)

end TensorMechanics.Product
