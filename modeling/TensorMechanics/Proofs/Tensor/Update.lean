import Mathlib
import TensorMechanics.Proofs.Expr.Evaluation
import TensorMechanics.Scalar.Bounded
import TensorMechanics.Tensor.Update

/-!
# Proofs: updates in place

An update goes through the entries once and stops at the first new value that faults. So what it
leaves is fixed by one position: the entries before it are new and those from it on are old, and
without a faulting value all entries are new.

The new values are those of a lazy expression: overwriting by an expression is that expression, adding
one to a tensor is the sum of the tensor and the expression, and so on. The expression is a value of
its own, so it never sees an entry that the update has already replaced.
-/

namespace TensorMechanics.Tensor

open MultiIndex

variable {α : Type} {d r : Nat}

/-! ## One pass over the entries -/

/-- As long as the new values can be computed, an update replaces entry after entry; what happens
behind them is the update of the rest. -/
theorem updateFrom_append (f : Nat → α → Checked α) (p : Nat) {xs ys : List α} (zs : List α)
    (hlen : ys.length = xs.length)
    (h : ∀ i (_ : i < xs.length) (_ : i < ys.length), f (p + i) xs[i] = .ok ys[i]) :
    updateFrom f p (xs ++ zs) =
      ((updateFrom f (p + xs.length) zs).1, ys ++ (updateFrom f (p + xs.length) zs).2) := by
  induction xs generalizing p ys with
  | nil =>
    obtain rfl := List.length_eq_zero_iff.mp hlen
    rfl
  | cons x xs ih =>
    obtain ⟨y, ys, rfl⟩ := List.exists_cons_of_length_eq_add_one hlen
    have hfirst : f p x = .ok y := h 0 (Nat.zero_lt_succ _) (Nat.zero_lt_succ _)
    have hrest : ∀ i (_ : i < xs.length) (_ : i < ys.length), f (p + 1 + i) xs[i] = .ok ys[i] := by
      intro i hi hi'
      have hnext := h (i + 1) (Nat.succ_lt_succ hi) (Nat.succ_lt_succ hi')
      rw [Nat.add_assoc, Nat.add_comm 1 i]
      exact hnext
    rw [List.cons_append, updateFrom, hfirst]
    simp only [ih (p + 1) (Nat.succ.inj hlen) hrest, List.length_cons, List.cons_append]
    rw [Nat.add_assoc p 1, Nat.add_comm 1 xs.length]

/-- Updating in step with a walk is updating by position. -/
theorem updateAlong_fromPosition (f : MultiIndex r → α → Checked α)
    (hdim : 0 < r → d < Word.limit) (xs : List α) {p : Nat} (hp : p + xs.length = d ^ r) :
    updateAlong f (Walk.fromPosition d r p) xs =
      updateFrom (fun q => f (ofOffset d r q)) p xs := by
  induction xs generalizing p with
  | nil => rfl
  | cons x xs ih =>
    rw [List.length_cons] at hp
    have hstep := Walk.step_fromPosition (r := r) hdim (show p < d ^ r by omega)
    have hrest := ih (p := p + 1) (by omega)
    simp only [updateAlong, updateFrom, hstep, hrest]

theorem updateIndexed_eq_updateEach (f : MultiIndex r → α → Checked α) (t : Tensor α d r)
    (hlen : d ^ r < Word.limit) :
    t.updateIndexed f = t.updateEach fun p => f (ofOffset d r p) := by
  have hcount : 0 + t.toList.length = d ^ r := (Nat.zero_add _).trans t.length_toList
  have halong := updateAlong_fromPosition f (dim_lt_limit hlen) t.toList hcount
  rw [← Walk.full_eq_fromPosition] at halong
  simp only [updateIndexed, Walk.start_of_lt hlen, halong, updateEach]

/-! ## The tensor that is left -/

section

variable {f : Nat → α → Checked α} {t u : Tensor α d r}

theorem updateEach_eq_of_updateFrom {outcome : Checked Unit}
    (h : updateFrom f 0 t.toList = (outcome, u.toList)) : t.updateEach f = (outcome, u) := by
  have hlength := (length_updateFrom f 0 t.toList).trans t.length_toList
  have houtcome : (updateFrom f 0 t.toList).1 = outcome := congrArg Prod.fst h
  have hleft : ofLength (updateFrom f 0 t.toList).2 hlength = u := by
    apply Tensor.ext
    apply Vector.toList_inj.mp
    exact (toList_ofLength _ hlength).trans (congrArg Prod.snd h)
  exact Prod.ext houtcome hleft

/-- An update that never faults leaves the new values. -/
theorem updateEach_of_ok (h : ∀ p (hp : p < Nat.pow d r), f p t.entries[p] = .ok u.entries[p]) :
    t.updateEach f = (.ok (), u) := by
  have hpass : updateFrom f 0 t.toList = (.ok (), u.toList) := by
    have hvalues : ∀ i (_ : i < t.toList.length) (_ : i < u.toList.length),
        f (0 + i) t.toList[i] = .ok u.toList[i] := by
      intro i hi _
      rw [Nat.zero_add]
      exact h i (by rwa [length_toList] at hi)
    have hall := updateFrom_append f 0 [] (by rw [length_toList, length_toList]) hvalues
    rw [List.append_nil, updateFrom, List.append_nil] at hall
    exact hall
  exact updateEach_eq_of_updateFrom hpass

/-- An update whose value at a position faults, and none before it, leaves new values before the
position and old ones from it on. -/
theorem updateEach_of_error {q : Nat} {fault : Fault} (hq : q < Nat.pow d r)
    (hfault : f q t.entries[q] = .error fault)
    (hnew : ∀ p (hp : p < Nat.pow d r), p < q → f p t.entries[p] = .ok u.entries[p])
    (hold : ∀ p (hp : p < Nat.pow d r), q ≤ p → u.entries[p] = t.entries[p]) :
    t.updateEach f = (.error fault, u) := by
  have hlen : (t.toList.take q).length = q := by
    rw [List.length_take, length_toList, Nat.min_eq_left hq.le]
  have hprefix : ∀ i (_ : i < (t.toList.take q).length) (_ : i < (u.toList.take q).length),
      f (0 + i) (t.toList.take q)[i] = .ok (u.toList.take q)[i] := by
    intro i hi _
    rw [Nat.zero_add, List.getElem_take, List.getElem_take]
    exact hnew i ((hlen ▸ hi).trans hq) (hlen ▸ hi)
  have hsuffix : u.toList.drop q = t.toList.drop q := by
    refine List.ext_getElem (by simp) fun i hi _ => ?_
    rw [List.length_drop, length_toList] at hi
    rw [List.getElem_drop, List.getElem_drop]
    exact hold (q + i) (by omega) (Nat.le_add_right q i)
  have hstop : updateFrom f q (t.toList.drop q) = (.error fault, t.toList.drop q) := by
    have hq' : q < t.toList.length := by rwa [length_toList]
    have hvalue : f q t.toList[q] = .error fault := hfault
    rw [List.drop_eq_getElem_cons hq', updateFrom, hvalue]
  have hpass : updateFrom f 0 t.toList = (.error fault, u.toList) := by
    have hall := updateFrom_append f 0 (t.toList.drop q) (by simp) hprefix
    rw [List.take_append_drop, hlen, Nat.zero_add, hstop, ← hsuffix, List.take_append_drop] at hall
    exact hall
  exact updateEach_eq_of_updateFrom hpass

end

/-! ## Assignments -/

/-- An assignment to a whole tensor. -/
inductive Assignment (α : Type) (d r : Nat) where
  /-- Overwrites the tensor by an expression. -/
  | assign (e : Expr α d r)
  /-- Adds an expression to the tensor. -/
  | add (e : Expr α d r)
  /-- Subtracts an expression from the tensor. -/
  | subtract (e : Expr α d r)
  /-- Multiplies the tensor by a number. -/
  | multiply (alpha : α)

namespace Assignment

variable [Scalar α]

/-- The outcome of an assignment and the tensor it leaves. -/
def run (t : Tensor α d r) : Assignment α d r → Checked Unit × Tensor α d r
  | .assign e => t.assign e.evaluate
  | .add e => t.addAssign e.evaluate
  | .subtract e => t.subAssign e.evaluate
  | .multiply alpha => t.mulAssign alpha

/-- The expression whose values an assignment to a tensor stores. -/
def lazy (t : Tensor α d r) : Assignment α d r → Expr α d r
  | .assign e => e
  | .add e => .sum (.tensor t) e
  | .subtract e => .difference (.tensor t) e
  | .multiply alpha => .scaled (.tensor t) alpha

/-- The value that an assignment stores at a position. -/
def newValue (t : Tensor α d r) (s : Assignment α d r) (p : Nat) : Checked α :=
  (s.lazy t).evaluate (ofOffset d r p)

/-- Every assignment is one pass that stores the new values. -/
theorem exists_run_eq_updateEach (s : Assignment α d r) (t : Tensor α d r)
    (hlen : d ^ r < Word.limit) :
    ∃ f, s.run t = t.updateEach f ∧
      ∀ p (hp : p < Nat.pow d r), f p t.entries[p] = s.newValue t p := by
  cases s with
  | assign e => exact ⟨_, updateIndexed_eq_updateEach _ t hlen, fun p hp => rfl⟩
  | add e =>
    refine ⟨_, updateIndexed_eq_updateEach _ t hlen, fun p hp => ?_⟩
    simp only [newValue, lazy, Expr.evaluate, t.read_ofOffset hlen hp, Checked.ok_bind]
  | subtract e =>
    refine ⟨_, updateIndexed_eq_updateEach _ t hlen, fun p hp => ?_⟩
    simp only [newValue, lazy, Expr.evaluate, t.read_ofOffset hlen hp, Checked.ok_bind]
  | multiply alpha =>
    refine ⟨_, rfl, fun p hp => ?_⟩
    simp only [newValue, lazy, Expr.evaluate, t.read_ofOffset hlen hp, Checked.ok_bind]

/-- If the expression materializes, the assignment leaves its tensor. -/
theorem run_of_eval (s : Assignment α d r) {t u : Tensor α d r} (h : (s.lazy t).eval = .ok u) :
    s.run t = (.ok (), u) := by
  obtain ⟨hlen, hvalues⟩ := Expr.eval_eq_ok.mp h
  obtain ⟨f, hrun, hf⟩ := s.exists_run_eq_updateEach t hlen
  rw [hrun]
  exact updateEach_of_ok fun p hp => (hf p hp).trans (hvalues p hp)

/-- Assignments agree with the lazy expressions, and a fault leaves exactly a prefix updated. If all
new values can be computed, the assignment succeeds and leaves the tensor that the expression
materializes to. Otherwise it stops with the fault of the first new value that faults: the entries
before that position are new, those from it on are the old ones. New values are computed from the
tensor as it was before. The number of entries stays. -/
theorem run_agrees_with_lazy (s : Assignment α d r) (t : Tensor α d r) (hlen : d ^ r < Word.limit) :
    ((∀ p < d ^ r, ∃ x, s.newValue t p = .ok x) →
      ∃ u : Tensor α d r, s.run t = (.ok (), u) ∧ (s.lazy t).eval = .ok u ∧
        ∀ p (_ : p < d ^ r), s.newValue t p = .ok u.entries[p]) ∧
    (∀ q (_ : q < d ^ r) (fault : Fault), s.newValue t q = .error fault →
      (∀ p < q, ∃ x, s.newValue t p = .ok x) →
      ∃ u : Tensor α d r, s.run t = (.error fault, u) ∧
        (∀ p (_ : p < d ^ r), p < q → s.newValue t p = .ok u.entries[p]) ∧
        ∀ p (_ : p < d ^ r), q ≤ p → u.entries[p] = t.entries[p]) ∧
    (s.run t).2.toList.length = d ^ r := by
  refine ⟨fun hall => ?_, fun q hq fault hfault hbefore => ?_, length_toList _⟩
  · choose x hx using hall
    let u : Tensor α d r := ⟨Vector.ofFn fun p => x p p.isLt⟩
    have hu : ∀ p (_ : p < d ^ r), s.newValue t p = .ok u.entries[p] := by
      intro p hp
      rw [hx p hp, Vector.getElem_ofFn]
    have heval : (s.lazy t).eval = .ok u := Expr.eval_eq_ok.mpr ⟨hlen, hu⟩
    exact ⟨u, s.run_of_eval heval, heval, hu⟩
  · choose x hx using hbefore
    let u : Tensor α d r :=
      ⟨Vector.ofFn fun p => if hp : p.val < q then x p hp else t.entries[p]⟩
    have hnew : ∀ p (_ : p < d ^ r), p < q → s.newValue t p = .ok u.entries[p] := by
      intro p _ hpq
      rw [hx p hpq, Vector.getElem_ofFn, dif_pos hpq]
    have hold : ∀ p (_ : p < d ^ r), q ≤ p → u.entries[p] = t.entries[p] := by
      intro p hp hqp
      rw [Vector.getElem_ofFn, dif_neg (Nat.not_lt.mpr hqp)]
      rfl
    obtain ⟨f, hrun, hf⟩ := s.exists_run_eq_updateEach t hlen
    refine ⟨u, ?_, hnew, hold⟩
    rw [hrun]
    exact updateEach_of_error hq ((hf q hq).trans hfault)
      (fun p hp hpq => (hf p hp).trans (hnew p hp hpq)) hold

/-- Numbers of 8 bits: adding to the second entry overflows, subtracting does not. -/
theorem run_agrees_with_lazy_unsigned8 :
    3 ^ 1 < Word.limit ∧ ∃ t e : Tensor (Bounded .unsigned8) 3 1,
      t.toList.map Bounded.val = [20, 250, 30] ∧ e.toList.map Bounded.val = [1, 10, 2] ∧
      (∃ u, (add (.tensor e)).run t = (.error (.overflow .addition), u) ∧
        u.entries[0].val = 21 ∧ u.entries[1].val = 250 ∧ u.entries[2].val = 30) ∧
      ∃ u, (subtract (.tensor e)).run t = (.ok (), u) ∧
        (Expr.difference (.tensor t) (.tensor e)).eval = .ok u := by
  let t : Tensor (Bounded .unsigned8) 3 1 :=
    ⟨#v[⟨20, by decide, by decide⟩, ⟨250, by decide, by decide⟩, ⟨30, by decide, by decide⟩]⟩
  let e : Tensor (Bounded .unsigned8) 3 1 :=
    ⟨#v[⟨1, by decide, by decide⟩, ⟨10, by decide, by decide⟩, ⟨2, by decide, by decide⟩]⟩
  have hlen : 3 ^ 1 < Word.limit := by decide
  refine ⟨hlen, t, e, rfl, rfl, ?_, ?_⟩
  · have hfault : (add (.tensor e)).newValue t 1 = .error (.overflow .addition) := rfl
    have hfirst : (add (.tensor e)).newValue t 0 = .ok ⟨21, by decide, by decide⟩ := rfl
    have hbefore : ∀ p < 1, ∃ x, (add (.tensor e)).newValue t p = .ok x := by
      intro p hp
      obtain rfl : p = 0 := by omega
      exact ⟨_, hfirst⟩
    obtain ⟨u, hrun, hnew, hold⟩ :=
      (run_agrees_with_lazy (add (.tensor e)) t hlen).2.1 1 (by decide) _ hfault hbefore
    have hentry := Except.ok.inj (hfirst.symm.trans (hnew 0 (by decide) (by decide)))
    exact ⟨u, hrun, congrArg Bounded.val hentry.symm,
      congrArg Bounded.val (hold 1 (by decide) le_rfl),
      congrArg Bounded.val (hold 2 (by decide) (by decide))⟩
  · have hvalues : ∀ p < 3 ^ 1, ∃ x, (subtract (.tensor e)).newValue t p = .ok x := by
      intro p hp
      interval_cases p
      · exact ⟨_, rfl⟩
      · exact ⟨_, rfl⟩
      · exact ⟨_, rfl⟩
    obtain ⟨u, hrun, heval, -⟩ := (run_agrees_with_lazy (subtract (.tensor e)) t hlen).1 hvalues
    exact ⟨u, hrun, heval⟩

end Assignment

end TensorMechanics.Tensor
