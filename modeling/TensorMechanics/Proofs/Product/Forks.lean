import Mathlib
import TensorMechanics.Proofs.ColumnMatrix
import TensorMechanics.Proofs.Product.Entries
import TensorMechanics.Proofs.Product.Tiling
import TensorMechanics.Scalar.Bounded

/-!
# Proofs: what the tasks of a fork write

`Plan.trace` lists what running a plan does to its target. The halves of a cut of rows or columns act
on their part of the target; a forked cut of the inner side computes two partial products elsewhere
and adds each of them under a lock. Replaying the actions makes of the target what running the plan
makes of it, so nothing else is written.

The two tasks of a forked cut of rows or columns therefore write no entry in common, and those of a
forked cut of the inner side write only while they hold the lock of the fork.
-/

namespace TensorMechanics.Product

open ColumnMatrix Grid

variable {α : Type}

/-! ## Actions on a part of a matrix -/

section Parts

variable {m m₁ m₂ n n₁ n₂ : Nat}

theorem firstPart_lt (h : m₁ + m₂ = m) (i : Fin m₁) : i.val < m := by omega

theorem secondPart_lt (h : m₁ + m₂ = m) (i : Fin m₂) : m₁ + i.val < m := by omega

/-- A position of the first part of a side, seen from the whole side. -/
def firstPart (h : m₁ + m₂ = m) (i : Fin m₁) : Fin m := ⟨i, firstPart_lt h i⟩

/-- A position of the second part of a side, seen from the whole side. -/
def secondPart (h : m₁ + m₂ = m) (i : Fin m₂) : Fin m := ⟨m₁ + i, secondPart_lt h i⟩

theorem firstPart_injective (h : m₁ + m₂ = m) : (firstPart h).Injective := by
  intro i j hij
  have hval : (firstPart h i).val = (firstPart h j).val := congrArg Fin.val hij
  exact Fin.ext hval

theorem secondPart_injective (h : m₁ + m₂ = m) : (secondPart h).Injective := by
  intro i j hij
  have hval : m₁ + i.val = m₁ + j.val := congrArg Fin.val hij
  exact Fin.ext (Nat.add_left_cancel hval)

theorem firstPart_ne_secondPart (h : m₁ + m₂ = m) (i : Fin m₁) (j : Fin m₂) :
    firstPart h i ≠ secondPart h j := by
  intro hij
  have hval : i.val = m₁ + j.val := congrArg Fin.val hij
  omega

theorem secondPart_mk (h : m₁ + m₂ = m) {i : Fin m} (hi : ¬ i.val < m₁) :
    secondPart h ⟨i - m₁, sub_lt_of_not_lt h i hi⟩ = i :=
  Fin.ext (Nat.add_sub_cancel' (Nat.not_lt.mp hi))

/-- An action on a part of a matrix, seen from the whole matrix. -/
def Action.embed (f : Fin m₁ → Fin m) (g : Fin n₁ → Fin n) : Action α m₁ n₁ → Action α m n
  | acquire lock => .acquire lock
  | update i j step => .update (f i) (g j) step
  | release lock => .release lock

theorem written_map_embed (f : Fin m₁ → Fin m) (g : Fin n₁ → Fin n) (actions : List (Action α m₁ n₁)) :
    written (actions.map (.embed f g)) = (written actions).map (Prod.map f g) := by
  rw [written, List.filterMap_map, written, List.map_filterMap]
  congr 1
  funext action
  cases action <;> rfl

theorem stepsAt_map_embed {f : Fin m₁ → Fin m} {g : Fin n₁ → Fin n} (hf : f.Injective)
    (hg : g.Injective) (actions : List (Action α m₁ n₁)) (i : Fin m₁) (j : Fin n₁) :
    stepsAt (actions.map (.embed f g)) (f i) (g j) = stepsAt actions i j := by
  rw [stepsAt, List.filterMap_map, stepsAt]
  congr 1
  funext action
  cases action with
  | acquire => rfl
  | update i' j' step => simp [Action.embed, Action.stepAt, hf.eq_iff, hg.eq_iff]
  | release => rfl

theorem stepsAt_map_embed_eq_nil {f : Fin m₁ → Fin m} {g : Fin n₁ → Fin n}
    (actions : List (Action α m₁ n₁)) {i : Fin m} {j : Fin n}
    (h : ∀ i' j', ¬ (f i' = i ∧ g j' = j)) : stepsAt (actions.map (.embed f g)) i j = [] := by
  apply stepsAt_eq_nil
  rw [written_map_embed, List.mem_map]
  rintro ⟨⟨i', j'⟩, -, heq⟩
  exact h i' j' (Prod.ext_iff.mp heq)

section Apart

/-! Two parts that have no entry in common. -/

variable {f : Fin m₁ → Fin m} {g : Fin n₁ → Fin n} {f' : Fin m₂ → Fin m} {g' : Fin n₂ → Fin n}
  (h : ∀ i j i' j', ¬ (f i = f' i' ∧ g j = g' j')) (first : List (Action α m₁ n₁))
  (second : List (Action α m₂ n₂))

include h

theorem disjoint_written_map_embed :
    (written (first.map (.embed f g))).Disjoint (written (second.map (.embed f' g'))) := by
  rw [written_map_embed, written_map_embed]
  intro entry hfirst hsecond
  obtain ⟨⟨i, j⟩, -, rfl⟩ := List.mem_map.mp hfirst
  obtain ⟨⟨i', j'⟩, -, heq⟩ := List.mem_map.mp hsecond
  exact h i j i' j' (Prod.ext_iff.mp heq.symm)

theorem stepsAt_append_first (hf : f.Injective) (hg : g.Injective) (i : Fin m₁) (j : Fin n₁) :
    stepsAt (first.map (.embed f g) ++ second.map (.embed f' g')) (f i) (g j) = stepsAt first i j := by
  have hnone : stepsAt (second.map (.embed f' g')) (f i) (g j) = [] :=
    stepsAt_map_embed_eq_nil second fun i' j' heq => h i j i' j' ⟨heq.1.symm, heq.2.symm⟩
  rw [stepsAt_append, hnone, List.append_nil, stepsAt_map_embed hf hg]

theorem stepsAt_append_second (hf : f'.Injective) (hg : g'.Injective) (i : Fin m₂) (j : Fin n₂) :
    stepsAt (first.map (.embed f g) ++ second.map (.embed f' g')) (f' i) (g' j) =
      stepsAt second i j := by
  have hnone : stepsAt (first.map (.embed f g)) (f' i) (g' j) = [] :=
    stepsAt_map_embed_eq_nil first fun i' j' heq => h i' j' i j heq
  rw [stepsAt_append, hnone, List.nil_append, stepsAt_map_embed hf hg]

end Apart

theorem rows_apart (h : m₁ + m₂ = m) (i : Fin m₁) (j : Fin n) (i' : Fin m₂) (j' : Fin n) :
    ¬ (firstPart h i = secondPart h i' ∧ id j = id j') :=
  fun heq => firstPart_ne_secondPart h i i' heq.1

theorem columns_apart (h : n₁ + n₂ = n) (i : Fin m) (j : Fin n₁) (i' : Fin m) (j' : Fin n₂) :
    ¬ (id i = id i' ∧ firstPart h j = secondPart h j') :=
  fun heq => firstPart_ne_secondPart h j j' heq.2

/-- An entry takes the steps of the half that its row belongs to. -/
theorem stepsAt_rows (h : m₁ + m₂ = m) (top : List (Action α m₁ n)) (bottom : List (Action α m₂ n))
    (i : Fin m) (j : Fin n) :
    stepsAt (top.map (.embed (firstPart h) id) ++ bottom.map (.embed (secondPart h) id)) i j =
      if hi : i.val < m₁ then stepsAt top ⟨i, hi⟩ j
      else stepsAt bottom ⟨i - m₁, sub_lt_of_not_lt h i hi⟩ j := by
  by_cases hi : i.val < m₁
  · rw [dif_pos hi]
    exact stepsAt_append_first (rows_apart h) top bottom (firstPart_injective h)
      Function.injective_id ⟨i, hi⟩ j
  · have hsteps := stepsAt_append_second (rows_apart h) top bottom (secondPart_injective h)
      Function.injective_id ⟨i - m₁, sub_lt_of_not_lt h i hi⟩ j
    rw [secondPart_mk h hi] at hsteps
    rw [dif_neg hi]
    exact hsteps

theorem stepsAt_columns (h : n₁ + n₂ = n) (left : List (Action α m n₁))
    (right : List (Action α m n₂)) (i : Fin m) (j : Fin n) :
    stepsAt (left.map (.embed id (firstPart h)) ++ right.map (.embed id (secondPart h))) i j =
      if hj : j.val < n₁ then stepsAt left i ⟨j, hj⟩
      else stepsAt right i ⟨j - n₁, sub_lt_of_not_lt h j hj⟩ := by
  by_cases hj : j.val < n₁
  · rw [dif_pos hj]
    exact stepsAt_append_first (columns_apart h) left right Function.injective_id
      (firstPart_injective h) i ⟨j, hj⟩
  · have hsteps := stepsAt_append_second (columns_apart h) left right Function.injective_id
      (secondPart_injective h) i ⟨j - n₁, sub_lt_of_not_lt h j hj⟩
    rw [secondPart_mk h hj] at hsteps
    rw [dif_neg hj]
    exact hsteps

end Parts

/-! ## Partial products -/

section Partial

variable [Scalar α] {m n : Nat}

/-- Adds the entry of a partial product at a position. -/
def Action.addEntry (x : ColumnMatrix α m n) (p : Fin (n * m)) : Action α m n :=
  .update (columnOf p) (rowOf p) fun y => Scalar.add y (x.get (columnOf p) (rowOf p))

/-- Adds a partial product under a lock, entry by entry. A task whose partial product faults does not
come to this. -/
def addPartial (lock : List Half) : Checked (ColumnMatrix α m n) → List (Action α m n)
  | .error _ => []
  | .ok x =>
    .acquire lock :: (List.finRange (n * m)).map (.addEntry x) ++ [.release lock]

/-- What two tasks do that work one after the other. -/
def Half.order (earlier : Half) (first second : List (Action α m n)) : List (Action α m n) :=
  match earlier with
  | .first => first ++ second
  | .second => second ++ first

theorem stepsAt_addPartial (lock : List Half) (x : ColumnMatrix α m n) (i : Fin m) (j : Fin n) :
    stepsAt (addPartial lock (.ok x)) i j = [fun y => Scalar.add y (x.get i j)] := by
  have hentries : stepsAt ((List.finRange (n * m)).map (.addEntry x)) i j =
      [fun y => Scalar.add y (x.get i j)] := by
    rw [stepsAt, List.filterMap_map, List.filterMap_eq_flatMap_toList,
      flatMap_eq_of_unique (List.nodup_finRange _) (List.mem_finRange (position j i))]
    · simp [Action.addEntry, Action.stepAt]
    · intro p hp
      have hne : ¬ (columnOf p = i ∧ rowOf p = j) := fun h =>
        hp (position_eq_iff.mpr ⟨h.2, h.1⟩)
      simp [Action.addEntry, Action.stepAt, hne]
  rw [addPartial, stepsAt_append]
  exact (List.append_nil _).trans hentries

/-- Both partial products reach an entry, in the order of the tasks. -/
theorem runSteps_order (earlier : Half) (lock : List Half) (x y : ColumnMatrix α m n) (i : Fin m)
    (j : Fin n) (z : α) :
    runSteps (stepsAt (earlier.order (addPartial lock (.ok x)) (addPartial lock (.ok y))) i j) z =
      earlier.addBoth z (x.get i j) (y.get i j) := by
  cases earlier with
  | first =>
    rw [Half.order, stepsAt_append, stepsAt_addPartial, stepsAt_addPartial]
    simp only [List.singleton_append, runSteps, List.foldlM_cons, List.foldlM_nil, bind_pure,
      Half.addBoth]
  | second =>
    rw [Half.order, stepsAt_append, stepsAt_addPartial, stepsAt_addPartial]
    simp only [List.singleton_append, runSteps, List.foldlM_cons, List.foldlM_nil, bind_pure,
      Half.addBoth]

/-- A partial product is added while its lock is held. -/
theorem guardedBy_addPartial (lock : List Half) (x : Checked (ColumnMatrix α m n)) :
    GuardedBy lock false (addPartial lock x) := by
  cases x with
  | error fault => trivial
  | ok x =>
    have hentries : ∀ positions : List (Fin (n * m)),
        GuardedBy lock true (positions.map (.addEntry x) ++ [.release lock]) := by
      intro positions
      induction positions with
      | nil => trivial
      | cons p positions ih => exact ⟨rfl, ih⟩
    simpa [addPartial, GuardedBy] using hentries (List.finRange (n * m))

end Partial

/-! ## Forks -/

/-- The sides of a product. -/
inductive Side where
  | rows
  | columns
  | inner
  deriving DecidableEq, Repr

/-- A fork: the side that is cut, the path to it, which names its lock, and what its two tasks do to the
matrix that both of them work on. -/
structure Fork (α : Type) where
  side : Side
  path : List Half
  /-- The number of rows of the matrix. -/
  height : Nat
  /-- The number of columns of the matrix. -/
  width : Nat
  first : List (Action α height width)
  second : List (Action α height width)

/-- The tasks of a cut of rows or columns write no entry in common, and those of a cut of the inner
side write only while they hold the lock. -/
def Fork.Disciplined (fork : Fork α) : Prop :=
  match fork.side with
  | .rows | .columns => (written fork.first).Disjoint (written fork.second)
  | .inner => GuardedBy fork.path false fork.first ∧ GuardedBy fork.path false fork.second

/-- What running a plan does: the actions on its target, and all forks, also those inside of partial
products. -/
structure Trace (α : Type) (m n : Nat) where
  actions : List (Action α m n)
  forks : List (Fork α)

section Plans

variable [Scalar α]

/-- The trace of a plan for factors `a` and `b`. The path to the plan has the innermost half first. The
tasks of a cut of rows or columns stand one after the other; a task that faults stops on its way. -/
def Plan.trace {m k n : Nat} : Plan m k n → Schedule → (path : List Half) → ColumnMatrix α m k →
    ColumnMatrix α k n → Trace α m n
  | .skip, _, _, _, _ => ⟨[], []⟩
  | .leaf, _, _, a, b => ⟨(leafWrites a b).map Write.action, []⟩
  | .rows _ _ h forked top bottom, s, path, a, b =>
    let upper := top.trace (s.within .first) (.first :: path) (a.topRows h) b
    let lower := bottom.trace (s.within .second) (.second :: path) (a.bottomRows h) b
    let first := upper.actions.map (.embed (firstPart h) id)
    let second := lower.actions.map (.embed (secondPart h) id)
    ⟨first ++ second,
      (if forked then [⟨.rows, path, m, n, first, second⟩] else []) ++ (upper.forks ++ lower.forks)⟩
  | .columns _ _ h forked left right, s, path, a, b =>
    let x := left.trace (s.within .first) (.first :: path) a (b.leftColumns h)
    let y := right.trace (s.within .second) (.second :: path) a (b.rightColumns h)
    let first := x.actions.map (.embed id (firstPart h))
    let second := y.actions.map (.embed id (secondPart h))
    ⟨first ++ second,
      (if forked then [⟨.columns, path, m, n, first, second⟩] else []) ++ (x.forks ++ y.forks)⟩
  | .inner _ _ h true first second, s, path, a, b =>
    let zero := ColumnMatrix.replicate m n (Scalar.zero : α)
    let x := first.trace (s.within .first) (.first :: path) (a.leftColumns h) (b.topRows h)
    let y := second.trace (s.within .second) (.second :: path) (a.rightColumns h) (b.bottomRows h)
    let first :=
      addPartial path (first.run (s.within .first) (a.leftColumns h) (b.topRows h) zero)
    let second :=
      addPartial path (second.run (s.within .second) (a.rightColumns h) (b.bottomRows h) zero)
    ⟨(s []).order first second, ⟨.inner, path, m, n, first, second⟩ :: (x.forks ++ y.forks)⟩
  | .inner _ _ h false first second, s, path, a, b =>
    let x := first.trace (s.within .first) (.first :: path) (a.leftColumns h) (b.topRows h)
    let y := second.trace (s.within .second) (.second :: path) (a.rightColumns h) (b.bottomRows h)
    ⟨x.actions ++ y.actions, x.forks ++ y.forks⟩

/-- If running a plan answers, the steps of its actions at an entry lead to the entry of the result. -/
theorem Plan.runSteps_trace {m k n : Nat} (plan : Plan m k n) (s : Schedule) (path : List Half)
    (a : ColumnMatrix α m k) (b : ColumnMatrix α k n) {c c' : ColumnMatrix α m n}
    (h : plan.run s a b c = .ok c') (i : Fin m) (j : Fin n) :
    runSteps (stepsAt (plan.trace s path a b).actions i j) (c.get i j) = .ok (c'.get i j) := by
  induction plan generalizing s path with
  | skip =>
    obtain rfl : c = c' := Except.ok.inj h
    rfl
  | leaf =>
    rw [trace, runSteps_writes, termsAt_leafWrites]
    exact (entrywise_accumulate a b c).entry_eq_ok h i j
  | rows m₁ m₂ hm forked top bottom ihTop ihBottom =>
    obtain ⟨upper, hupper, h⟩ := Checked.bind_eq_ok.mp h
    obtain ⟨lower, hlower, h⟩ := Checked.bind_eq_ok.mp h
    obtain rfl : ColumnMatrix.above hm upper lower = c' := Except.ok.inj h
    rw [trace, stepsAt_rows, above, get_ofFn]
    by_cases hi : i.val < m₁
    · rw [dif_pos hi, dif_pos hi]
      simpa [topRows] using ihTop _ _ _ _ hupper ⟨i, hi⟩ j
    · rw [dif_neg hi, dif_neg hi]
      have hrow : m₁ + (i.val - m₁) = i.val := by omega
      simpa [bottomRows, hrow] using ihBottom _ _ _ _ hlower ⟨i - m₁, sub_lt_of_not_lt hm i hi⟩ j
  | columns n₁ n₂ hn forked left right ihLeft ihRight =>
    obtain ⟨x, hx, h⟩ := Checked.bind_eq_ok.mp h
    obtain ⟨y, hy, h⟩ := Checked.bind_eq_ok.mp h
    obtain rfl : ColumnMatrix.beside hn x y = c' := Except.ok.inj h
    rw [trace, stepsAt_columns, beside, get_ofFn]
    by_cases hj : j.val < n₁
    · rw [dif_pos hj, dif_pos hj]
      simpa [leftColumns] using ihLeft _ _ _ _ hx i ⟨j, hj⟩
    · rw [dif_neg hj, dif_neg hj]
      have hcolumn : n₁ + (j.val - n₁) = j.val := by omega
      simpa [rightColumns, hcolumn] using ihRight _ _ _ _ hy i ⟨j - n₁, sub_lt_of_not_lt hn j hj⟩
  | inner k₁ k₂ hk forked first second ihFirst ihSecond =>
    cases forked with
    | true =>
      -- both partial products are there, and the schedule says which one comes first
      obtain ⟨x, y, hx, hy⟩ := exists_ok_of_merge_eq_ok h
      rw [run, hx, hy] at h
      rw [trace, hx, hy, runSteps_order]
      exact (entrywise_merge (s []) (.ok x) (.ok y) c).entry_eq_ok h i j
    | false =>
      obtain ⟨d, hd, h⟩ := Checked.bind_eq_ok.mp h
      rw [trace, stepsAt_append, runSteps_append, ihFirst _ _ _ _ hd i j, Checked.ok_bind]
      exact ihSecond _ _ _ _ h i j

/-- Replaying the actions of a plan makes of the target what running the plan makes of it. -/
theorem Plan.replay_trace {m k n : Nat} (plan : Plan m k n) (s : Schedule) (path : List Half)
    (a : ColumnMatrix α m k) (b : ColumnMatrix α k n) {c c' : ColumnMatrix α m n}
    (h : plan.run s a b c = .ok c') :
    (plan.trace s path a b).actions.foldlM Action.apply c = .ok c' :=
  (entrywise_replay _ c).eq_ok fun i j => plan.runSteps_trace s path a b h i j

theorem Plan.length_forks_trace {m k n : Nat} (plan : Plan m k n) (s : Schedule) (path : List Half)
    (a : ColumnMatrix α m k) (b : ColumnMatrix α k n) :
    (plan.trace s path a b).forks.length = plan.forks := by
  have hself : ∀ (forked : Bool) (fork : Fork α),
      (if forked then [fork] else []).length = forked.toNat := by
    intro forked fork
    cases forked <;> rfl
  induction plan generalizing s path with
  | skip => rfl
  | leaf => rfl
  | rows m₁ m₂ h forked top bottom ihTop ihBottom =>
    rw [trace, forks, List.length_append, List.length_append, hself, ihTop, ihBottom, Nat.add_assoc]
  | columns n₁ n₂ h forked left right ihLeft ihRight =>
    rw [trace, forks, List.length_append, List.length_append, hself, ihLeft, ihRight, Nat.add_assoc]
  | inner k₁ k₂ h forked first second ihFirst ihSecond =>
    cases forked with
    | true =>
      rw [trace, forks, List.length_cons, List.length_append, ihFirst, ihSecond, Bool.toNat_true]
      omega
    | false =>
      rw [trace, forks, List.length_append, ihFirst, ihSecond, Bool.toNat_false, Nat.zero_add]

theorem Plan.disciplined_of_mem_forks {m k n : Nat} (plan : Plan m k n) (s : Schedule)
    (path : List Half) (a : ColumnMatrix α m k) (b : ColumnMatrix α k n) {fork : Fork α}
    (h : fork ∈ (plan.trace s path a b).forks) : fork.Disciplined := by
  induction plan generalizing s path with
  | skip => cases h
  | leaf => cases h
  | rows m₁ m₂ hm forked top bottom ihTop ihBottom =>
    simp only [trace, List.mem_append, List.mem_ite_nil_right, List.mem_singleton] at h
    obtain ⟨-, rfl⟩ | h | h := h
    · exact disjoint_written_map_embed (rows_apart hm) _ _
    · exact ihTop _ _ _ _ h
    · exact ihBottom _ _ _ _ h
  | columns n₁ n₂ hn forked left right ihLeft ihRight =>
    simp only [trace, List.mem_append, List.mem_ite_nil_right, List.mem_singleton] at h
    obtain ⟨-, rfl⟩ | h | h := h
    · exact disjoint_written_map_embed (columns_apart hn) _ _
    · exact ihLeft _ _ _ _ h
    · exact ihRight _ _ _ _ h
  | inner k₁ k₂ hk forked first second ihFirst ihSecond =>
    cases forked with
    | true =>
      simp only [trace, List.mem_cons, List.mem_append] at h
      obtain rfl | h | h := h
      · exact ⟨guardedBy_addPartial _ _, guardedBy_addPartial _ _⟩
      · exact ihFirst _ _ _ _ h
      · exact ihSecond _ _ _ _ h
    | false =>
      simp only [trace, List.mem_append] at h
      obtain h | h := h
      · exact ihFirst _ _ _ _ h
      · exact ihSecond _ _ _ _ h

end Plans

/-! ## The tiling of a product -/

/-- The plan for given settings tiles the product. The recursion that finds it ends after as many levels
as the logarithms of the sides allow, where leaf size zero counts as one. Every cut has two halves
that are smaller, not empty, and lie side by side. The sides of the leaves are not empty and not above
the leaf size, and every index triple of the product is in the box of exactly one leaf, any other in
none. Every fork is disciplined, and the actions of the tasks are all that a run does to its target. -/
theorem Settings.plan_tiles_product (settings : Settings) (m k n : Nat) :
    (∀ levels, Nat.clog 2 m + Nat.clog 2 k + Nat.clog 2 n < levels →
      Plan.buildWithin? levels (max settings.leafSize 1) settings.maxParallelDepth m k n =
        some (settings.plan m k n)) ∧
    (∀ cut ∈ (settings.plan m k n).cuts 0 0 0, cut.Halves) ∧
    (∀ box ∈ (settings.plan m k n).boxes 0 0 0,
      ∀ side ∈ [box.rows.2, box.inner.2, box.columns.2],
        1 ≤ side ∧ side ≤ max settings.leafSize 1) ∧
    (∀ i p j, ((settings.plan m k n).boxes 0 0 0).countP (fun box => box.Contains i p j) =
      if i < m ∧ p < k ∧ j < n then 1 else 0) ∧
    ∀ {α : Type} [Scalar α] (s : Schedule) (a : ColumnMatrix α m k) (b : ColumnMatrix α k n),
      (∀ fork ∈ ((settings.plan m k n).trace s [] a b).forks, fork.Disciplined) ∧
      ((settings.plan m k n).trace s [] a b).forks.length = (settings.plan m k n).forks ∧
      ∀ c c', (settings.plan m k n).run s a b c = .ok c' →
        ((settings.plan m k n).trace s [] a b).actions.foldlM Action.apply c = .ok c' := by
  refine ⟨fun levels h => ?_, fun cut h => ?_, fun box h => ?_, fun i p j => ?_,
    fun s a b => ⟨fun fork h => ?_, ?_, fun c c' h => ?_⟩⟩
  · exact Plan.buildWithin?_eq_some _ levels _ m k n h
  · exact Plan.halves_of_mem_cuts _ _ m k n 0 0 0 h
  · exact Plan.sides_of_mem_boxes _ _ m k n 0 0 0 h
  · have hcomplete : (settings.plan m k n).Complete := Plan.complete_build _ _ m k n
    rw [Plan.countP_boxes _ hcomplete]
    simp [Box.Contains, positions]
  · exact Plan.disciplined_of_mem_forks _ s [] a b h
  · exact Plan.length_forks_trace _ s [] a b
  · exact Plan.replay_trace _ s [] a b h

/-- A row by a square with leaf size zero: a forked cut of the columns, and a forked cut of the inner
side in each half. -/
theorem Settings.plan_tiles_product_row_by_square :
    Nat.clog 2 1 + Nat.clog 2 2 + Nat.clog 2 2 < 3 ∧ ∃ plan : Plan 1 2 2,
      Settings.plan ⟨0, 2⟩ 1 2 2 = plan ∧
      plan = .columns 1 1 rfl true (.inner 1 1 rfl true .leaf .leaf)
        (.inner 1 1 rfl true .leaf .leaf) ∧
      plan.cuts 0 0 0 = [⟨(0, 2), (0, 1), (1, 1)⟩, ⟨(0, 2), (0, 1), (1, 1)⟩,
        ⟨(0, 2), (0, 1), (1, 1)⟩] ∧
      (∀ cut ∈ plan.cuts 0 0 0, cut.Halves) ∧
      (plan.boxes 0 0 0).countP (fun box => box.Contains 0 1 1) = 1 ∧
      ∀ (a : ColumnMatrix (Bounded .signed32) 1 2) (b : ColumnMatrix (Bounded .signed32) 2 2),
        (plan.trace .inOrder [] a b).forks.length = 3 ∧
        ∀ fork ∈ (plan.trace .inOrder [] a b).forks, fork.Disciplined := by
  obtain ⟨hlevels, hcuts, -, hboxes, hforks⟩ := Settings.plan_tiles_product ⟨0, 2⟩ 1 2 2
  have hclog : Nat.clog 2 1 + Nat.clog 2 2 + Nat.clog 2 2 < 3 := by decide
  have hplan : Settings.plan ⟨0, 2⟩ 1 2 2 =
      .columns 1 1 rfl true (.inner 1 1 rfl true .leaf .leaf) (.inner 1 1 rfl true .leaf .leaf) :=
    (Option.some.inj (hlevels 3 hclog)).symm
  refine ⟨hclog, _, rfl, hplan, by rw [hplan]; rfl, hcuts, hboxes 0 1 1, fun a b => ?_⟩
  obtain ⟨hdisciplined, hlength, -⟩ := hforks .inOrder a b
  exact ⟨hlength.trans (by rw [hplan]; rfl), hdisciplined⟩

end TensorMechanics.Product
