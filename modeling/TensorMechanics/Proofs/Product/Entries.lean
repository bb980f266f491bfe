import Mathlib
import TensorMechanics.Proofs.Product.Actions

/-!
# Proofs: the entries of a product

Every entry of a product along a plan is computed by a scalar program of its own, which reads the
factors of its terms and the old entry, and nothing else. A leaf adds the terms one after the other
to the old entry. A cut of rows or columns leaves the entry to one of the halves. A cut of the inner
side splits the terms: both halves go on from the entry, or, if the cut is forked, start from zero
and are added to it in the order of the schedule.

So what a plan computes, when it faults and how it depends on the schedule are questions about
`Plan.entry` alone.
-/

namespace TensorMechanics

variable {α : Type} {m k n : Nat}

/-- Adds the products of pairs of factors to a number, one after the other. -/
def Scalar.addProducts [Scalar α] (x : α) (terms : List (α × α)) : Checked α :=
  terms.foldlM (fun acc t => do Scalar.add acc (← Scalar.mul t.1 t.2)) x

theorem Scalar.addProducts_append [Scalar α] (x : α) (ts us : List (α × α)) :
    addProducts x (ts ++ us) = addProducts x ts >>= fun y => addProducts y us :=
  List.foldlM_append

namespace ColumnMatrix

/-- The factors of the terms of an entry of the product, in the order of the inner positions. -/
def terms (a : ColumnMatrix α m k) (b : ColumnMatrix α k n) (i : Fin m) (j : Fin n) : List (α × α) :=
  (List.finRange k).map fun p => (a.get i p, b.get p j)

@[simp] theorem length_terms (a : ColumnMatrix α m k) (b : ColumnMatrix α k n) (i : Fin m)
    (j : Fin n) : (terms a b i j).length = k := by
  simp [terms]

section Blocks

variable {k₁ k₂ : Nat} (h : k₁ + k₂ = k) (a : ColumnMatrix α m k) (b : ColumnMatrix α k n)
  (i : Fin m) (j : Fin n)

theorem terms_first : terms (a.leftColumns h) (b.topRows h) i j = (terms a b i j).take k₁ := by
  apply List.ext_getElem
  · simp
    omega
  · intro p _ _
    simp [terms, leftColumns, topRows]

theorem terms_second :
    terms (a.rightColumns h) (b.bottomRows h) i j = (terms a b i j).drop k₁ := by
  apply List.ext_getElem
  · simp
    omega
  · intro p _ _
    simp [terms, rightColumns, bottomRows]

end Blocks

end ColumnMatrix

namespace Product

open ColumnMatrix

/-! ## The run of writes of a leaf -/

/-- A product that is added to an entry: the row and the column, and the two factors. -/
abbrev Write (α : Type) (m n : Nat) := (Fin m × Fin n) × (α × α)

/-- What a run of writes adds to an entry: its own writes, in order. -/
def termsAt (ws : List (Write α m n)) (i : Fin m) (j : Fin n) : List (α × α) :=
  (ws.filter fun w => w.1 = (i, j)).map Prod.snd

theorem termsAt_append (ws vs : List (Write α m n)) (i : Fin m) (j : Fin n) :
    termsAt (ws ++ vs) i j = termsAt ws i j ++ termsAt vs i j := by
  rw [termsAt, List.filter_append, List.map_append, termsAt, termsAt]

theorem termsAt_singleton (w : Write α m n) (i : Fin m) (j : Fin n) :
    termsAt [w] i j = if w.1 = (i, j) then [w.2] else [] := by
  by_cases hw : w.1 = (i, j)
  · simp [termsAt, hw]
  · simp [termsAt, hw]

/-- The writes of a leaf. -/
def leafWrites (a : ColumnMatrix α m k) (b : ColumnMatrix α k n) : List (Write α m n) :=
  (List.finRange n).flatMap fun j => (List.finRange k).flatMap fun p =>
    (List.finRange m).map fun i => ((i, j), (a.get i p, b.get p j))

/-- Among the values of a function on distinct items, only those of one item are not empty. -/
theorem flatMap_eq_of_unique {β γ : Type} {xs : List β} (hnodup : xs.Nodup) {x : β} (hx : x ∈ xs)
    {g : β → List γ} (h : ∀ y, y ≠ x → g y = []) : xs.flatMap g = g x := by
  induction xs with
  | nil => cases hx
  | cons y ys ih =>
    obtain ⟨hy, hys⟩ := List.nodup_cons.mp hnodup
    rw [List.flatMap_cons]
    rcases List.mem_cons.mp hx with rfl | hx
    · have hrest : ys.flatMap g = [] := by
        rw [List.flatMap_eq_nil_iff]
        intro z hz
        exact h z fun hzx => hy (hzx ▸ hz)
      rw [hrest, List.append_nil]
    · rw [ih hys hx, h y fun hyx => hy (hyx ▸ hx), List.nil_append]

/-- The writes of a leaf to an entry are its terms, in order. -/
theorem termsAt_leafWrites (a : ColumnMatrix α m k) (b : ColumnMatrix α k n) (i : Fin m)
    (j : Fin n) : termsAt (leafWrites a b) i j = terms a b i j := by
  -- the writes of one inner position and one column
  have hrows : ∀ (j' : Fin n) (p : Fin k),
      termsAt ((List.finRange m).map fun i' => ((i', j'), (a.get i' p, b.get p j'))) i j =
        if j' = j then [(a.get i p, b.get p j)] else [] := by
    intro j' p
    rw [termsAt, List.filter_map, List.map_map]
    by_cases hj : j' = j
    · subst hj
      have hrow : (List.finRange m).filter (fun i' => decide (i' = i)) = [i] := by
        rw [List.filter_eq, List.count_finRange]
        rfl
      simp [Function.comp_def, hrow]
    · simp [Function.comp_def, hj]
  have hcolumns : ∀ j' : Fin n,
      termsAt ((List.finRange k).flatMap fun p =>
        (List.finRange m).map fun i' => ((i', j'), (a.get i' p, b.get p j'))) i j =
        if j' = j then terms a b i j else [] := by
    intro j'
    rw [termsAt, List.filter_flatMap, List.map_flatMap]
    simp only [← termsAt.eq_1, hrows]
    by_cases hj : j' = j
    · rw [terms, List.map_eq_flatMap]
      simp [hj]
    · simp [hj]
  rw [termsAt, leafWrites, List.filter_flatMap, List.map_flatMap]
  simp only [← termsAt.eq_1, hcolumns]
  rw [flatMap_eq_of_unique (List.nodup_finRange n) (List.mem_finRange j)]
  · rw [if_pos rfl]
  · intro j' hj'
    rw [if_neg hj']

variable [Scalar α]

/-- Adds a product to an entry. -/
def write (c : ColumnMatrix α m n) (w : Write α m n) : Checked (ColumnMatrix α m n) := do
  return c.set w.1.1 w.1.2 (← Scalar.add (c.get w.1.1 w.1.2) (← Scalar.mul w.2.1 w.2.2))

/-- Adds the product of two factors to a number. -/
def addProduct (t : α × α) (x : α) : Checked α := do Scalar.add x (← Scalar.mul t.1 t.2)

/-- A write as an action. -/
def Write.action (w : Write α m n) : Action α m n := .update w.1.1 w.1.2 (addProduct w.2)

theorem Write.apply_action (c : ColumnMatrix α m n) (w : Write α m n) :
    (Write.action w).apply c = write c w := by
  rw [action, Action.apply, addProduct, write, bind_assoc]

/-- The steps of a run of writes at an entry add what the run adds to it. -/
theorem stepsAt_writes (ws : List (Write α m n)) (i : Fin m) (j : Fin n) :
    stepsAt (ws.map Write.action) i j = (termsAt ws i j).map addProduct := by
  induction ws with
  | nil => rfl
  | cons w ws ih =>
    have hfirst : stepsAt [Write.action w] i j = (termsAt [w] i j).map addProduct := by
      rw [termsAt_singleton]
      by_cases hw : w.1 = (i, j)
      · simp [stepsAt, Write.action, Action.stepAt, hw]
      · have hne : ¬ (w.1.1 = i ∧ w.1.2 = j) := fun h => hw (Prod.ext h.1 h.2)
        simp [stepsAt, Write.action, Action.stepAt, hw, hne]
    calc stepsAt ((w :: ws).map Write.action) i j
        = stepsAt [Write.action w] i j ++ stepsAt (ws.map Write.action) i j :=
          stepsAt_append [Write.action w] (ws.map Write.action) i j
      _ = (termsAt [w] i j ++ termsAt ws i j).map addProduct := by
          rw [hfirst, ih, List.map_append]
      _ = (termsAt (w :: ws) i j).map addProduct := by
          rw [← termsAt_append, List.singleton_append]

theorem runSteps_writes (ws : List (Write α m n)) (i : Fin m) (j : Fin n) (x : α) :
    runSteps (stepsAt (ws.map Write.action) i j) x = Scalar.addProducts x (termsAt ws i j) := by
  rw [stepsAt_writes, runSteps, List.foldlM_map]
  rfl

/-- A run of writes computes each entry by the writes to it. -/
theorem entrywise_writes (ws : List (Write α m n)) (c : ColumnMatrix α m n) :
    Entrywise (ws.foldlM write c) fun i j => Scalar.addProducts (c.get i j) (termsAt ws i j) := by
  have hreplay : (ws.map Write.action).foldlM Action.apply c = ws.foldlM write c := by
    rw [List.foldlM_map]
    exact Checked.foldlM_congr (fun w _ c => Write.apply_action c w) c
  rw [← hreplay]
  exact (entrywise_replay _ c).congr fun i j => runSteps_writes ws i j (c.get i j)

theorem accumulate_eq_writes (a : ColumnMatrix α m k) (b : ColumnMatrix α k n)
    (c : ColumnMatrix α m n) : accumulate a b c = (leafWrites a b).foldlM write c := by
  rw [accumulate, leafWrites, Checked.foldlM_flatMap]
  refine Checked.foldlM_congr (fun j _ c => ?_) c
  rw [Checked.foldlM_flatMap]
  refine Checked.foldlM_congr (fun p _ c => ?_) c
  rw [List.foldlM_map]
  refine Checked.foldlM_congr (fun i _ c => ?_) c
  rw [write]
  cases Scalar.mul (a.get i p) (b.get p j) with
  | error fault => rfl
  | ok term =>
    dsimp only
    rw [Checked.ok_bind]
    cases Scalar.add (c.get i j) term with
    | error fault => rfl
    | ok x => rfl

/-- A leaf computes each entry by adding its terms to the old one. -/
theorem entrywise_accumulate (a : ColumnMatrix α m k) (b : ColumnMatrix α k n)
    (c : ColumnMatrix α m n) :
    Entrywise (accumulate a b c) fun i j => Scalar.addProducts (c.get i j) (terms a b i j) := by
  rw [accumulate_eq_writes]
  exact (entrywise_writes (leafWrites a b) c).congr fun i j => by rw [termsAt_leafWrites]

/-! ## Plans -/

/-- Adds the results of two tasks to an entry, in the order of the schedule. -/
def Half.addBoth (earlier : Half) (x y z : α) : Checked α :=
  match earlier with
  | .first => do Scalar.add (← Scalar.add x y) z
  | .second => do Scalar.add (← Scalar.add x z) y

/-- Merging answers only if both tasks do. -/
theorem exists_ok_of_merge_eq_ok {earlier : Half} {x y : Checked (ColumnMatrix α m n)}
    {c d : ColumnMatrix α m n} (h : merge earlier x y c = .ok d) :
    ∃ u v, x = .ok u ∧ y = .ok v := by
  cases x with
  | error fault =>
    rw [merge] at h
    cases h
  | ok u =>
    cases y with
    | error fault =>
      rw [merge] at h
      cases hcu : c.add u <;> simp [hcu] at h
    | ok v => exact ⟨u, v, rfl, rfl⟩

/-- Two tasks that compute their entries contribute both to each entry of the target. -/
theorem entrywise_merge {x y : Checked (ColumnMatrix α m n)} {f g : Fin m → Fin n → Checked α}
    (earlier : Half) (hx : Entrywise x f) (hy : Entrywise y g) (c : ColumnMatrix α m n) :
    Entrywise (merge earlier x y c) fun i j =>
      f i j >>= fun y => g i j >>= earlier.addBoth (c.get i j) y := by
  have hadd : ∀ u v : ColumnMatrix α m n, Entrywise (merge earlier (.ok u) (.ok v) c) fun i j =>
      earlier.addBoth (c.get i j) (u.get i j) (v.get i j) := by
    intro u v
    cases earlier with
    | first =>
      exact (Entrywise.add c u).bind (s := fun i j w => Scalar.add w (v.get i j))
        (fun d => Entrywise.add d v)
    | second =>
      exact (Entrywise.add c v).bind (s := fun i j w => Scalar.add w (u.get i j))
        (fun d => Entrywise.add d u)
  intro d
  constructor
  · intro h i j
    obtain ⟨u, v, hu, hv⟩ := exists_ok_of_merge_eq_ok h
    rw [hu, hv] at h
    show (f i j >>= fun y => g i j >>= earlier.addBoth (c.get i j) y) = _
    rw [hx.entry_eq_ok hu i j, hy.entry_eq_ok hv i j, Checked.ok_bind, Checked.ok_bind]
    exact (hadd u v).entry_eq_ok h i j
  · intro h
    simp only [Checked.bind_eq_ok] at h
    choose u hu v hv huv using h
    have hx' : x = .ok (ofFn u) := hx.eq_ok fun i j => by rw [get_ofFn, hu i j]
    have hy' : y = .ok (ofFn v) := hy.eq_ok fun i j => by rw [get_ofFn, hv i j]
    rw [hx', hy']
    refine (hadd _ _).eq_ok fun i j => ?_
    rw [get_ofFn, get_ofFn, huv i j]

/-- How a plan computes an entry, from the factors of its terms and the old entry. -/
def Plan.entry {m k n : Nat} : Plan m k n → Schedule → Fin m → Fin n → List (α × α) → α → Checked α
  | .skip, _, _, _, _, x => .ok x
  | .leaf, _, _, _, terms, x => Scalar.addProducts x terms
  | .rows m₁ _ h _ top bottom, s, i, j, terms, x =>
    if hi : i.val < m₁ then top.entry (s.within .first) ⟨i, hi⟩ j terms x
    else bottom.entry (s.within .second) ⟨i - m₁, sub_lt_of_not_lt h i hi⟩ j terms x
  | .columns n₁ _ h _ left right, s, i, j, terms, x =>
    if hj : j.val < n₁ then left.entry (s.within .first) i ⟨j, hj⟩ terms x
    else right.entry (s.within .second) i ⟨j - n₁, sub_lt_of_not_lt h j hj⟩ terms x
  | .inner k₁ _ _ true first second, s, i, j, terms, x => do
    let y ← first.entry (s.within .first) i j (terms.take k₁) Scalar.zero
    let z ← second.entry (s.within .second) i j (terms.drop k₁) Scalar.zero
    (s []).addBoth x y z
  | .inner k₁ _ _ false first second, s, i, j, terms, x => do
    let y ← first.entry (s.within .first) i j (terms.take k₁) x
    second.entry (s.within .second) i j (terms.drop k₁) y

/-- A plan computes each entry by itself. -/
theorem Plan.entrywise_run {m k n : Nat} (plan : Plan m k n) (s : Schedule)
    (a : ColumnMatrix α m k) (b : ColumnMatrix α k n) (c : ColumnMatrix α m n) :
    Entrywise (plan.run s a b c) fun i j => plan.entry s i j (terms a b i j) (c.get i j) := by
  induction plan generalizing s with
  | skip => exact Entrywise.ok c
  | leaf => exact entrywise_accumulate a b c
  | rows m₁ m₂ h forked top bottom ihTop ihBottom =>
    refine (Entrywise.above h (ihTop (s.within .first) (a.topRows h) b (c.topRows h))
      (ihBottom (s.within .second) (a.bottomRows h) b (c.bottomRows h))).congr fun i j => ?_
    -- the terms and the old entry of a half are those of the row
    rw [entry]
    by_cases hi : i.val < m₁
    · rw [dif_pos hi, dif_pos hi]
      simp [terms, topRows]
    · rw [dif_neg hi, dif_neg hi]
      have hrow : m₁ + (i.val - m₁) = i.val := by omega
      simp [terms, bottomRows, hrow]
  | columns n₁ n₂ h forked left right ihLeft ihRight =>
    refine (Entrywise.beside h (ihLeft (s.within .first) a (b.leftColumns h) (c.leftColumns h))
      (ihRight (s.within .second) a (b.rightColumns h) (c.rightColumns h))).congr fun i j => ?_
    rw [entry]
    by_cases hj : j.val < n₁
    · rw [dif_pos hj, dif_pos hj]
      simp [terms, leftColumns]
    · rw [dif_neg hj, dif_neg hj]
      have hcolumn : n₁ + (j.val - n₁) = j.val := by omega
      simp [terms, rightColumns, hcolumn]
  | inner k₁ k₂ h forked first second ihFirst ihSecond =>
    cases forked with
    | true =>
      refine (entrywise_merge (s []) (ihFirst (s.within .first) (a.leftColumns h) (b.topRows h) _)
        (ihSecond (s.within .second) (a.rightColumns h) (b.bottomRows h) _) c).congr fun i j => ?_
      rw [get_replicate, terms_first, terms_second]
      rfl
    | false =>
      refine ((ihFirst (s.within .first) (a.leftColumns h) (b.topRows h) c).bind (s := fun i j =>
        second.entry (s.within .second) i j ((terms a b i j).drop k₁)) fun d => ?_).congr
        fun i j => ?_
      · refine (ihSecond (s.within .second) (a.rightColumns h) (b.bottomRows h) d).congr
          fun i j => ?_
        rw [terms_second]
      · rw [terms_first]
        rfl

/-! ## Matrices of any size -/

/-- With dimensions that agree, the product is what is accumulated from zero. -/
theorem direct_of_agree (a : ColumnMatrix α m k) (b : ColumnMatrix α k n) :
    direct ⟨m, k, a⟩ ⟨k, n, b⟩ =
      (accumulate a b (.replicate m n Scalar.zero)).map fun product => ⟨m, n, product⟩ := by
  rw [direct, dif_pos rfl]
  simp only [recast_rfl]
  cases accumulate a b (.replicate m n Scalar.zero) with
  | error fault => rfl
  | ok product => rfl

theorem direct_eq_ok {a : ColumnMatrix α m k} {b : ColumnMatrix α k n} {c : ColumnMatrix α m n} :
    direct ⟨m, k, a⟩ ⟨k, n, b⟩ = .ok ⟨m, n, c⟩ ↔
      ∀ i j, Scalar.addProducts Scalar.zero (terms a b i j) = .ok (c.get i j) := by
  have hentries := entrywise_accumulate a b (.replicate m n Scalar.zero)
  simp only [get_replicate] at hentries
  rw [direct_of_agree, hentries.sized_eq_ok]

theorem direct_faults_iff {a : ColumnMatrix α m k} {b : ColumnMatrix α k n} :
    (∃ fault, direct ⟨m, k, a⟩ ⟨k, n, b⟩ = .error fault) ↔
      ∃ i j fault, Scalar.addProducts Scalar.zero (terms a b i j) = .error fault := by
  have hentries := entrywise_accumulate a b (.replicate m n Scalar.zero)
  simp only [get_replicate] at hentries
  rw [direct_of_agree, hentries.sized_faults_iff]

/-- With dimensions that agree, the product is reported and its plan is run. A run that answers leaves
its answer in the target. -/
theorem run_addInPlace_of_agree (settings : Settings) (schedule : Schedule) (c : ColumnMatrix α m n)
    (a : ColumnMatrix α m k) (b : ColumnMatrix α k n) :
    (addInPlace settings schedule ⟨m, k, a⟩ ⟨k, n, b⟩).run ⟨m, n, c⟩ =
      ⟨[⟨(m, k), (k, n), settings⟩],
        match (settings.plan m k n).run schedule a b c with
        | .ok sum => .ok ((), ⟨m, n, sum⟩)
        | .error fault => .error ⟨fault, none⟩⟩ := by
  rw [addInPlace, InPlace.run_get_bind, dif_pos rfl, dif_pos ⟨rfl, rfl⟩]
  simp only [recast_rfl]
  cases (settings.plan m k n).run schedule a b c with
  | error fault => rfl
  | ok sum => rfl

/-- With other dimensions nothing is reported, and the target is left as it is. -/
theorem run_addInPlace_of_not_agree (settings : Settings) (schedule : Schedule) {c a b : Sized α}
    (h : ¬ Agree c a b) :
    (addInPlace settings schedule a b).run c =
      .fail ⟨if a.columns = b.rows then .outputShape (c.rows, c.columns) (a.rows, b.columns)
        else .innerDimensions a.columns b.rows, some c⟩ := by
  by_cases hinner : a.columns = b.rows
  · have houter : ¬ (c.rows = a.rows ∧ c.columns = b.columns) := fun hc => h ⟨hinner, hc⟩
    rw [addInPlace, InPlace.run_get_bind, dif_pos hinner, dif_neg houter, if_pos hinner]
    rfl
  · rw [addInPlace, InPlace.run_get_bind, dif_neg hinner, if_neg hinner]
    rfl

theorem addInto_of_agree (settings : Settings) (schedule : Schedule) (c : ColumnMatrix α m n)
    (a : ColumnMatrix α m k) (b : ColumnMatrix α k n) :
    addInto settings schedule ⟨m, n, c⟩ ⟨m, k, a⟩ ⟨k, n, b⟩ =
      ⟨[⟨(m, k), (k, n), settings⟩],
        ((settings.plan m k n).run schedule a b c).map fun sum => ⟨m, n, sum⟩⟩ := by
  rw [addInto, run_addInPlace_of_agree]
  cases (settings.plan m k n).run schedule a b c with
  | error fault => rfl
  | ok sum => rfl

theorem addInto_of_not_agree (settings : Settings) (schedule : Schedule) {c a b : Sized α}
    (h : ¬ Agree c a b) :
    addInto settings schedule c a b =
      .fail (if a.columns = b.rows then .outputShape (c.rows, c.columns) (a.rows, b.columns)
        else .innerDimensions a.columns b.rows) := by
  rw [addInto, run_addInPlace_of_not_agree settings schedule h]
  rfl

/-- A target whose dimensions agree is left with the sum. -/
theorem targetAfter_eq_some_iff (settings : Settings) (schedule : Schedule)
    (c : ColumnMatrix α m n) (a : ColumnMatrix α m k) (b : ColumnMatrix α k n) {sum : Sized α} :
    targetAfter settings schedule ⟨m, n, c⟩ ⟨m, k, a⟩ ⟨k, n, b⟩ = some sum ↔
      (addInto settings schedule ⟨m, n, c⟩ ⟨m, k, a⟩ ⟨k, n, b⟩).result = .ok sum := by
  rw [targetAfter, addInto, run_addInPlace_of_agree]
  cases (settings.plan m k n).run schedule a b c with
  | error fault => simp
  | ok sum => simp

/-- Any other target stays as it is. -/
theorem targetAfter_of_not_agree (settings : Settings) (schedule : Schedule) {c a b : Sized α}
    (h : ¬ Agree c a b) : targetAfter settings schedule c a b = some c := by
  rw [targetAfter, run_addInPlace_of_not_agree settings schedule h]
  rfl

/-- The product in blocks is what its plan adds to zero. -/
theorem blocked_of_agree (settings : Settings) (schedule : Schedule) (a : ColumnMatrix α m k)
    (b : ColumnMatrix α k n) :
    (blocked settings schedule ⟨m, k, a⟩ ⟨k, n, b⟩).result =
      ((settings.plan m k n).run schedule a b (.replicate m n Scalar.zero)).map
        fun product => ⟨m, n, product⟩ := by
  rw [blocked, addInto_of_agree]

/-- Factors that do not agree have no product, in blocks or not. -/
theorem blocked_of_not_agree (settings : Settings) (schedule : Schedule) {a b : Sized α}
    (h : a.columns ≠ b.rows) :
    (blocked settings schedule a b).result = .error (.innerDimensions a.columns b.rows) := by
  rw [blocked, addInto_of_not_agree _ _ fun hagree => h hagree.1, if_neg h]
  rfl

end Product

end TensorMechanics
