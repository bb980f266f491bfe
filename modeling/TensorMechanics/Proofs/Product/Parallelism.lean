import Mathlib
import TensorMechanics.Proofs.Product.Forks

/-!
# Proofs: how much of a product is forked

The depth of a plan is handed down to both halves of every cut, one less on each level, and at zero nothing
is forked any more. So a plan forks the cuts on its first `depth` levels, which is all that the bounds use:
fewer than `2 ^ depth` forks, never more than `depth` of them inside each other, and at most `2 ^ depth` tasks
at the same time.

The depth for a number of threads is a number of binary digits, computed from the leading zeros of an index
word. It is the least depth that occupies the threads, because a number has at most `e` digits exactly if it
is below `2 ^ e`.
-/

namespace TensorMechanics.Product

/-! ## Numbers of digits -/

theorem threadDepthLimit.bitLength_le_iff {n e : Nat} : bitLength n ≤ e ↔ n < 2 ^ e := by
  rw [bitLength]
  by_cases hn : n = 0
  · rw [if_pos hn, hn]
    simp
  · rw [if_neg hn, Nat.succ_le_iff, Nat.log2_lt hn]

open threadDepthLimit

/-- The digits of an index word are those behind its leading zeros. -/
theorem sub_leadingZeros {n : Nat} (hn : n < Word.limit) : 64 - Word.leadingZeros n = bitLength n := by
  have hval : (BitVec.ofNat 64 n).toNat = n := by
    rw [BitVec.toNat_ofNat]
    exact Nat.mod_eq_of_lt hn
  apply le_antisymm
  · by_cases hzero : n = 0
    · have hclz : (BitVec.ofNat 64 n).clz = 64#64 := by
        rw [hzero]
        exact BitVec.clz_eq_iff_eq_zero.mpr rfl
      rw [Word.leadingZeros, hclz]
      simp
    · have hne : BitVec.ofNat 64 n ≠ 0#64 := by
        intro h
        rw [h] at hval
        exact hzero hval.symm
      have hlow := BitVec.two_pow_sub_clz_le_toNat_of_ne_zero (by decide) hne
      rw [hval, ← Nat.not_lt, ← bitLength_le_iff] at hlow
      rw [Word.leadingZeros]
      omega
  · rw [bitLength_le_iff]
    have hhigh := BitVec.toNat_lt_two_pow_sub_clz (x := BitVec.ofNat 64 n)
    rwa [hval] at hhigh

theorem threadDepthLimitInWords_eq {threads : Nat} (h : threads < Word.limit) :
    threadDepthLimitInWords threads = .ok (threadDepthLimit threads) := by
  have hlast : max threads 1 - 1 < Word.limit := by omega
  rw [threadDepthLimitInWords, Word.sub_of_le (Nat.le_max_right threads 1), Checked.ok_bind,
    Word.sub_of_le (Word.leadingZeros_le _), sub_leadingZeros hlast, threadDepthLimit]

theorem threadDepthLimit_le_iff {threads e : Nat} :
    threadDepthLimit threads ≤ e ↔ max threads 1 ≤ 2 ^ e := by
  rw [threadDepthLimit, bitLength_le_iff]
  omega

theorem isLeast_threadDepthLimit (threads : Nat) :
    IsLeast {e | max threads 1 ≤ 2 ^ e} (threadDepthLimit threads) :=
  ⟨threadDepthLimit_le_iff.mp le_rfl, fun _ he => threadDepthLimit_le_iff.mpr he⟩

/-- With one level less the threads would not all be occupied. -/
theorem two_pow_threadDepthLimit_lt (threads : Nat) :
    2 ^ threadDepthLimit threads < 2 * max threads 1 := by
  cases hdepth : threadDepthLimit threads with
  | zero =>
    rw [pow_zero]
    omega
  | succ e =>
    have hfew : ¬ threadDepthLimit threads ≤ e := by omega
    rw [threadDepthLimit_le_iff] at hfew
    rw [pow_succ]
    omega

/-! ## Nested forks and tasks at the same time -/

namespace Plan

theorem nesting_cut_le {depth first second : Nat} (hfirst : first ≤ depth - 1)
    (hsecond : second ≤ depth - 1) : (decide (0 < depth)).toNat + max first second ≤ depth := by
  cases depth with
  | zero =>
    rw [decide_eq_false (Nat.lt_irrefl 0), Bool.toNat_false]
    omega
  | succ depth =>
    rw [decide_eq_true depth.succ_pos, Bool.toNat_true]
    omega

theorem tasks_cut_le {depth first second : Nat} (hfirst : first ≤ 2 ^ (depth - 1))
    (hsecond : second ≤ 2 ^ (depth - 1)) :
    (if decide (0 < depth) = true then first + second else max first second) ≤ 2 ^ depth := by
  cases depth with
  | zero =>
    rw [if_neg (by decide)]
    exact max_le hfirst hsecond
  | succ depth =>
    rw [if_pos (decide_eq_true depth.succ_pos), pow_succ]
    rw [Nat.add_sub_cancel] at hfirst hsecond
    omega

variable {depth m k n : Nat} {plan : Plan m k n}

theorem ForkedTo.nesting_le (h : plan.ForkedTo depth) : plan.nesting ≤ depth := by
  induction plan generalizing depth with
  | skip => exact Nat.zero_le depth
  | leaf => exact Nat.zero_le depth
  | rows m₁ m₂ hm forked top bottom ihTop ihBottom =>
    obtain ⟨rfl, htop, hbottom⟩ := h
    exact nesting_cut_le (ihTop htop) (ihBottom hbottom)
  | columns n₁ n₂ hn forked left right ihLeft ihRight =>
    obtain ⟨rfl, hleft, hright⟩ := h
    exact nesting_cut_le (ihLeft hleft) (ihRight hright)
  | inner k₁ k₂ hk forked first second ihFirst ihSecond =>
    obtain ⟨rfl, hfirst, hsecond⟩ := h
    exact nesting_cut_le (ihFirst hfirst) (ihSecond hsecond)

theorem ForkedTo.tasks_le (h : plan.ForkedTo depth) : plan.tasks ≤ 2 ^ depth := by
  induction plan generalizing depth with
  | skip => exact Nat.one_le_two_pow
  | leaf => exact Nat.one_le_two_pow
  | rows m₁ m₂ hm forked top bottom ihTop ihBottom =>
    obtain ⟨rfl, htop, hbottom⟩ := h
    exact tasks_cut_le (ihTop htop) (ihBottom hbottom)
  | columns n₁ n₂ hn forked left right ihLeft ihRight =>
    obtain ⟨rfl, hleft, hright⟩ := h
    exact tasks_cut_le (ihLeft hleft) (ihRight hright)
  | inner k₁ k₂ hk forked first second ihFirst ihSecond =>
    obtain ⟨rfl, hfirst, hsecond⟩ := h
    exact tasks_cut_le (ihFirst hfirst) (ihSecond hsecond)

/-! ## Calls for any leaf size -/

theorem forkedTo_firstLevels (levels leafSize depth m k n : Nat) :
    (firstLevels levels leafSize depth m k n).ForkedTo depth := by
  fun_induction firstLevels levels leafSize depth m k n with
  | case1 => trivial
  | case2 => trivial
  | case3 => trivial
  | case4 levels leafSize depth m k n _ _ _ ihTop ihBottom => exact ⟨rfl, ihTop, ihBottom⟩
  | case5 levels leafSize depth m k n _ _ _ _ ihLeft ihRight => exact ⟨rfl, ihLeft, ihRight⟩
  | case6 levels leafSize depth m k n _ _ _ _ ihFirst ihSecond => exact ⟨rfl, ihFirst, ihSecond⟩

/-- Where the calls end within these levels, the first levels are the whole plan. -/
theorem firstLevels_eq_of_buildWithin? {levels leafSize depth m k n : Nat} {plan : Plan m k n}
    (h : buildWithin? levels leafSize depth m k n = some plan) :
    firstLevels levels leafSize depth m k n = plan := by
  fun_induction firstLevels levels leafSize depth m k n with
  | case1 => cases h
  | case2 levels leafSize depth m k n hempty =>
    rw [buildWithin?, if_pos hempty] at h
    exact Option.some.inj h
  | case3 levels leafSize depth m k n hempty hsmall =>
    rw [buildWithin?, if_neg hempty, if_pos hsmall] at h
    exact Option.some.inj h
  | case4 levels leafSize depth m k n hempty hlarge hlongest ihTop ihBottom =>
    rw [buildWithin?, if_neg hempty, if_neg hlarge, if_pos hlongest] at h
    obtain ⟨top, htop, h⟩ := Option.bind_eq_some_iff.mp h
    obtain ⟨bottom, hbottom, h⟩ := Option.bind_eq_some_iff.mp h
    rw [ihTop htop, ihBottom hbottom]
    exact Option.some.inj h
  | case5 levels leafSize depth m k n hempty hlarge hrows hlongest ihLeft ihRight =>
    rw [buildWithin?, if_neg hempty, if_neg hlarge, if_neg hrows, if_pos hlongest] at h
    obtain ⟨left, hleft, h⟩ := Option.bind_eq_some_iff.mp h
    obtain ⟨right, hright, h⟩ := Option.bind_eq_some_iff.mp h
    rw [ihLeft hleft, ihRight hright]
    exact Option.some.inj h
  | case6 levels leafSize depth m k n hempty hlarge hrows hcolumns ihFirst ihSecond =>
    rw [buildWithin?, if_neg hempty, if_neg hlarge, if_neg hrows, if_neg hcolumns] at h
    obtain ⟨first, hfirst, h⟩ := Option.bind_eq_some_iff.mp h
    obtain ⟨second, hsecond, h⟩ := Option.bind_eq_some_iff.mp h
    rw [ihFirst hfirst, ihSecond hsecond]
    exact Option.some.inj h

/-! ## Forks of a run -/

section Runs

variable {α : Type} [Scalar α] {fork : Fork α}

theorem ForkedTo.length_forks_lt (h : plan.ForkedTo depth) (s : Schedule) (path : List Half)
    (a : ColumnMatrix α m k) (b : ColumnMatrix α k n) :
    (plan.trace s path a b).forks.length < 2 ^ depth :=
  (plan.length_forks_trace s path a b).trans_lt h.forks_lt

/-- Where something is forked, the depth is not zero. -/
theorem ForkedTo.depth_pos (h : plan.ForkedTo depth) {s : Schedule} {path : List Half}
    {a : ColumnMatrix α m k} {b : ColumnMatrix α k n} (hfork : fork ∈ (plan.trace s path a b).forks) :
    0 < depth := by
  by_contra hzero
  obtain rfl : depth = 0 := by omega
  have hnone := h.length_forks_lt s path a b
  rw [pow_zero, Nat.lt_one_iff, List.length_eq_zero_iff] at hnone
  rw [hnone] at hfork
  cases hfork

/-- A half of a forked cut is one step further on the path and has one level less. -/
theorem length_cons_add_pred (half : Half) (path : List Half) (hdepth : 0 < depth) :
    (half :: path).length + (depth - 1) = path.length + depth := by
  rw [List.length_cons]
  omega

/-- The path to a fork is shorter than the depth. -/
theorem ForkedTo.length_path_lt (h : plan.ForkedTo depth) {s : Schedule} {path : List Half}
    {a : ColumnMatrix α m k} {b : ColumnMatrix α k n} (hfork : fork ∈ (plan.trace s path a b).forks) :
    fork.path.length < path.length + depth := by
  induction plan generalizing depth s path with
  | skip => cases hfork
  | leaf => cases hfork
  | rows m₁ m₂ hm forked top bottom ihTop ihBottom =>
    have hdepth := h.depth_pos hfork
    obtain ⟨-, htop, hbottom⟩ := h
    simp only [trace, List.mem_append, List.mem_ite_nil_right, List.mem_singleton] at hfork
    obtain ⟨-, rfl⟩ | hfork | hfork := hfork
    · exact Nat.lt_add_of_pos_right hdepth
    · exact (ihTop htop hfork).trans_eq (length_cons_add_pred _ path hdepth)
    · exact (ihBottom hbottom hfork).trans_eq (length_cons_add_pred _ path hdepth)
  | columns n₁ n₂ hn forked left right ihLeft ihRight =>
    have hdepth := h.depth_pos hfork
    obtain ⟨-, hleft, hright⟩ := h
    simp only [trace, List.mem_append, List.mem_ite_nil_right, List.mem_singleton] at hfork
    obtain ⟨-, rfl⟩ | hfork | hfork := hfork
    · exact Nat.lt_add_of_pos_right hdepth
    · exact (ihLeft hleft hfork).trans_eq (length_cons_add_pred _ path hdepth)
    · exact (ihRight hright hfork).trans_eq (length_cons_add_pred _ path hdepth)
  | inner k₁ k₂ hk forked first second ihFirst ihSecond =>
    have hdepth := h.depth_pos hfork
    obtain ⟨rfl, hfirst, hsecond⟩ := h
    -- the depth is not zero, so this cut is forked
    rw [decide_eq_true hdepth] at hfork
    simp only [trace, List.mem_cons, List.mem_append] at hfork
    obtain rfl | hfork | hfork := hfork
    · exact Nat.lt_add_of_pos_right hdepth
    · exact (ihFirst hfirst hfork).trans_eq (length_cons_add_pred _ path hdepth)
    · exact (ihSecond hsecond hfork).trans_eq (length_cons_add_pred _ path hdepth)

end Runs

end Plan

/-- The inner fork is made by one of the tasks of the outer one, or by a task that comes from these. -/
def Fork.Encloses {α : Type} (outer inner : Fork α) : Prop := ∃ half, half :: outer.path <:+ inner.path

theorem Fork.Encloses.length_path_lt {α : Type} {outer inner : Fork α} (h : outer.Encloses inner) :
    outer.path.length < inner.path.length := by
  obtain ⟨half, hpath⟩ := h
  exact hpath.length_le

/-- Forks inside each other are not more than the lengths that their paths can have. -/
theorem Fork.length_le_of_pairwise_encloses {α : Type} {depth : Nat} {forks : List (Fork α)}
    (hpath : ∀ fork ∈ forks, fork.path.length < depth) (hnested : forks.Pairwise Fork.Encloses) :
    forks.length ≤ depth := by
  have hlengths : (forks.map fun fork => fork.path.length).Pairwise (· < ·) :=
    List.pairwise_map.mpr (hnested.imp fun h => h.length_path_lt)
  have hnodup : (forks.map fun fork => fork.path.length).Nodup := hlengths.imp fun h => ne_of_lt h
  have hsubset : (forks.map fun fork => fork.path.length) ⊆ List.range depth := by
    intro length hlength
    obtain ⟨fork, hfork, rfl⟩ := List.mem_map.mp hlength
    exact List.mem_range.mpr (hpath fork hfork)
  simpa using (hnodup.subperm hsubset).length_le

/-! ## Bounds -/

/-- For every leaf size and however many levels of its calls are made, a product with depth `depth` makes at
most `2 ^ depth - 1` forks in all and at most `depth` inside each other, whatever its factors are, and none with
depth zero. With a leaf size of one at least the calls end, and then this is the plan that is run. The default
depth for a number of threads is computed without a fault and is the least one whose forks occupy the threads,
so fewer than twice as many tasks as threads work at the same time. -/
theorem forks_bounded :
    (∀ (levels leafSize depth m k n : Nat) (plan : Plan m k n),
      plan = Plan.build leafSize depth m k n ∨ plan = Plan.firstLevels levels leafSize depth m k n →
      plan.forks ≤ 2 ^ depth - 1 ∧ plan.nesting ≤ depth ∧ plan.tasks ≤ 2 ^ depth ∧
      ∀ {α : Type} [Scalar α] (s : Schedule) (a : ColumnMatrix α m k) (b : ColumnMatrix α k n),
        let forks := (plan.trace s [] a b).forks
        forks.length ≤ 2 ^ depth - 1 ∧
        (∀ nested ⊆ forks, nested.Pairwise Fork.Encloses → nested.length ≤ depth) ∧
        (depth = 0 → forks = [])) ∧
    (∀ levels leafSize depth m k n : Nat, Nat.clog 2 m + Nat.clog 2 k + Nat.clog 2 n < levels →
      Plan.firstLevels levels (max leafSize 1) depth m k n = Plan.build leafSize depth m k n) ∧
    ∀ threads < Word.limit, ∃ depth,
      threadDepthLimitInWords threads = .ok depth ∧ threadDepthLimit threads = depth ∧
      IsLeast {e | max threads 1 ≤ 2 ^ e} depth ∧
      (∀ m k n, ((Settings.forThreads threads).plan m k n).tasks ≤ 2 ^ depth) ∧
      2 ^ depth < 2 * max threads 1 := by
  refine ⟨fun levels leafSize depth m k n plan hplan => ?_, fun levels leafSize depth m k n hlevels => ?_,
    fun threads hthreads => ?_⟩
  · have hforked : plan.ForkedTo depth := by
      obtain rfl | rfl := hplan
      · exact Plan.forkedTo_build leafSize depth m k n
      · exact Plan.forkedTo_firstLevels levels leafSize depth m k n
    refine ⟨Nat.le_sub_one_of_lt hforked.forks_lt, hforked.nesting_le, hforked.tasks_le, fun s a b =>
      ⟨Nat.le_sub_one_of_lt (hforked.length_forks_lt s [] a b), fun nested hsubset hnested => ?_,
        fun hzero => ?_⟩⟩
    · refine Fork.length_le_of_pairwise_encloses (fun fork hfork => ?_) hnested
      exact (hforked.length_path_lt (hsubset hfork)).trans_eq (Nat.zero_add depth)
    · exact List.eq_nil_iff_forall_not_mem.mpr fun fork hfork => (hforked.depth_pos hfork).ne' hzero
  · exact Plan.firstLevels_eq_of_buildWithin? (Plan.buildWithin?_eq_some leafSize levels depth m k n hlevels)
  · exact ⟨_, threadDepthLimitInWords_eq hthreads, rfl, isLeast_threadDepthLimit threads,
      fun m k n => (Plan.forkedTo_build _ _ m k n).tasks_le, two_pow_threadDepthLimit_lt threads⟩

/-- A row by a square with depth two, where all bounds are reached, single entries with leaf size zero, whose
calls do not end, and nine threads. -/
theorem forks_bounded_row_by_square :
    Nat.clog 2 1 + Nat.clog 2 2 + Nat.clog 2 2 < 3 ∧ 9 < Word.limit ∧
      ∃ (plan : Plan 1 2 2) (entry : Plan 1 1 1),
        Plan.build 0 2 1 2 2 = plan ∧ Plan.firstLevels 3 1 2 1 2 2 = plan ∧
        plan.forks = 2 ^ 2 - 1 ∧ plan.nesting = 2 ∧ plan.tasks = 2 ^ 2 ∧
        (∀ a b, (plan.trace (α := Bounded .signed32) .inOrder [] a b).forks.map Fork.path =
            [[], [.first], [.second]] ∧
          ∀ nested ⊆ (plan.trace (α := Bounded .signed32) .inOrder [] a b).forks,
            nested.Pairwise Fork.Encloses → nested.length ≤ 2) ∧
        Plan.firstLevels 5 0 2 1 1 1 = entry ∧ entry.forks ≤ 2 ^ 2 - 1 ∧ entry.tasks ≤ 2 ^ 2 ∧
        threadDepthLimitInWords 9 = .ok 4 ∧ IsLeast {e | max 9 1 ≤ 2 ^ e} 4 ∧
        (∀ m k n, ((Settings.forThreads 9).plan m k n).tasks ≤ 2 ^ 4) ∧ 2 ^ 4 < 2 * max 9 1 := by
  obtain ⟨hbounds, hwhole, hthreads⟩ := forks_bounded
  have hclog : Nat.clog 2 1 + Nat.clog 2 2 + Nat.clog 2 2 < 3 := by decide
  have hlimit : 9 < Word.limit := by decide
  have hplan : Plan.firstLevels 3 1 2 1 2 2 = Plan.build 0 2 1 2 2 := hwhole 3 0 2 1 2 2 hclog
  obtain ⟨-, -, -, htrace⟩ := hbounds 3 0 2 1 2 2 _ (.inl hplan)
  obtain ⟨hforks, -, htasks, -⟩ := hbounds 5 0 2 1 1 1 _ (.inr rfl)
  obtain ⟨depth, hwords, hdepth, hleast, hdefault, hoccupied⟩ := hthreads 9 hlimit
  obtain rfl : 4 = depth := hdepth
  exact ⟨hclog, hlimit, _, _, hplan.symm, rfl, rfl, rfl, rfl,
    fun a b => ⟨rfl, (htrace .inOrder a b).2.1⟩, rfl, hforks, htasks, hwords, hleast, hdefault, hoccupied⟩

end TensorMechanics.Product
