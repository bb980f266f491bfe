import Mathlib
import TensorMechanics.Proofs.Expr.Evaluation
import TensorMechanics.Proofs.MultiIndex.Enumeration
import TensorMechanics.Scalar.Bounded

/-!
# Proofs: agreement of expressions

Two expressions are compared by traversing both in step. The first position where a value cannot be
computed or the values are not equal decides: a fault there is the outcome, or else the answer is no,
and nothing behind the position is evaluated. Tensors of the values could be compared instead, but to
make them everything would have to be evaluated first.

Nothing is assumed of the equality of scalars. In particular a number need not be equal to itself.
-/

namespace TensorMechanics

variable {α β : Type} {d r : Nat}

/-! ## Traversals in step -/

namespace Traversal

open MultiIndex

section Step

variable [BEq β] {s s' t t' : Traversal d r β} {x y : Checked β}

theorem agree_of_next (hs : s.next = (some <$> x, s')) (ht : t.next = (some <$> y, t')) :
    s.agree t = (do if (← x) == (← y) then s'.agree t' else return false) := by
  rw [agree]
  split
  next fault _ h =>
    rw [hs] at h
    cases x with
    | error fault' =>
      obtain rfl := Except.error.inj (Prod.mk.inj h).1
      rfl
    | ok x => cases h
  next h =>
    rw [hs] at h
    cases x with
    | error fault => cases h
    | ok x => cases h
  next x' s'' h =>
    rw [hs] at h
    cases x with
    | error fault => cases h
    | ok x =>
      obtain ⟨hx, rfl⟩ := Prod.mk.inj h
      obtain rfl := Option.some.inj (Except.ok.inj hx)
      rw [ht]
      cases y with
      | error fault => rfl
      | ok y => rfl

/-- At the end of the left traversal, the right one must be at its end too. -/
theorem agree_of_next_eq_none (hs : s.next = (.ok none, s')) :
    s.agree t = Option.isNone <$> t.next.1 := by
  rw [agree]
  split
  next h =>
    rw [hs] at h
    cases h
  next => rfl
  next h =>
    rw [hs] at h
    cases h

end Step

/-- Whether the values at an index can be read on both sides, the left one first, and are equal. -/
def equalAt [BEq β] (f g : MultiIndex r → Checked β) (ix : MultiIndex r) : Checked Bool := do
  let x ← f ix
  let y ← g ix
  return x == y

/-- From the same position on, two traversals are in step, and a single walk leads along both. -/
theorem agree_fromPosition [BEq β] (f g : MultiIndex r → Checked β) (hdim : 0 < r → d < Word.limit)
    {c n : Nat} (hn : c + n = d ^ r) :
    (fromPosition f d c).agree (fromPosition g d c) =
      Walk.allFrom d (equalAt f g) n (ofOffset d r c) := by
  induction n generalizing c with
  | zero =>
    have hend : d ^ r ≤ c := hn.ge
    rw [agree_of_next_eq_none (next_fromPosition_of_le f hend), next_fromPosition_of_le g hend]
    rfl
  | succ n ih =>
    have hc : c < d ^ r := by omega
    have hrest := ih (c := c + 1) (by omega)
    rw [agree_of_next (next_fromPosition f hdim hc) (next_fromPosition g hdim hc), hrest]
    cases hf : f (ofOffset d r c) with
    | error fault => rw [Walk.allFrom, equalAt, hf]; rfl
    | ok x =>
      cases hg : g (ofOffset d r c) with
      | error fault => rw [Walk.allFrom, equalAt, hf, hg]; rfl
      | ok y =>
        have htest : equalAt f g (ofOffset d r c) = .ok (x == y) := by rw [equalAt, hf, hg]; rfl
        cases hxy : x == y with
        | false =>
          rw [Walk.allFrom, htest, hxy]
          simp [hxy]
        | true =>
          have hhere : ∀ q, c ≤ q → q < c + 1 → equalAt f g (ofOffset d r q) = .ok true := by
            intro q hcq hqc
            obtain rfl : c = q := hcq.antisymm (Nat.le_of_lt_succ hqc)
            rw [htest, hxy]
          rw [Nat.add_comm n 1, Walk.allFrom_add hdim n hc hhere]
          simp [hxy]

end Traversal

/-! ## The first position that decides -/

namespace Expr

open MultiIndex

variable [Scalar α] [BEq α] {a b : Expr α d r}

/-- At a position, one of two expressions cannot be evaluated, or the values are not equal. -/
def StopsAt (a b : Expr α d r) (p : Nat) : Prop :=
  (∃ fault, a.evaluate (ofOffset d r p) = .error fault) ∨
    (∃ fault, b.evaluate (ofOffset d r p) = .error fault) ∨
    ∃ x y, a.evaluate (ofOffset d r p) = .ok x ∧ b.evaluate (ofOffset d r p) = .ok y ∧
      (x == y) = false

theorem equalAt_eq_true {p : Nat} :
    Traversal.equalAt a.evaluate b.evaluate (ofOffset d r p) = .ok true ↔ ¬ a.StopsAt b p := by
  unfold StopsAt Traversal.equalAt
  cases a.evaluate (ofOffset d r p) with
  | error fault => simp
  | ok x =>
    cases b.evaluate (ofOffset d r p) with
    | error fault => simp
    | ok y => simp

theorem stopsAt_iff_of_ok {p : Nat} {x y : α} (hx : a.evaluate (ofOffset d r p) = .ok x)
    (hy : b.evaluate (ofOffset d r p) = .ok y) : a.StopsAt b p ↔ (x == y) = false := by
  simp [StopsAt, hx, hy]

theorem agree_of_lt (hlen : d ^ r < Word.limit) :
    a.agree b = (Walk.full d r).all (Traversal.equalAt a.evaluate b.evaluate) := by
  rw [agree, Walk.start_of_lt hlen]
  rfl

theorem agree_of_le (hlen : Word.limit ≤ d ^ r) :
    a.agree b = .error (.overflow .multiplication) := by
  rw [agree, Walk.start_of_le hlen]
  rfl

/-- The comparison in one walk is that of both traversals in step. -/
theorem agree_eq_traversals (a b : Expr α d r) :
    a.agree b = (do (← a.traversal).agree (← b.traversal)) := by
  rcases Nat.lt_or_ge (d ^ r) Word.limit with hlen | hlen
  · have hstart : ∀ e : Expr α d r, e.traversal = .ok (.fromPosition e.evaluate d 0) :=
      fun e => Traversal.start_of_lt e.evaluate hlen
    have hstep := Traversal.agree_fromPosition a.evaluate b.evaluate (dim_lt_limit hlen)
      (Nat.zero_add (d ^ r))
    rw [hstart, hstart, Checked.ok_bind, Checked.ok_bind, hstep, ← zeros_eq_ofOffset,
      agree_of_lt hlen]
    rfl
  · have hstart : a.traversal = .error (.overflow .multiplication) := by
      rw [traversal, Traversal.start, Walk.start_of_le hlen]
    rw [hstart, agree_of_le hlen]
    rfl

theorem agree_of_forall (hlen : d ^ r < Word.limit) (h : ∀ p < d ^ r, ¬ a.StopsAt b p) :
    a.agree b = .ok true := by
  rw [agree_of_lt hlen]
  exact Walk.all_full_of_forall (dim_lt_limit hlen) fun p hp => equalAt_eq_true.mpr (h p hp)

theorem agree_of_first (hlen : d ^ r < Word.limit) {q : Nat} (hq : q < d ^ r) (hstop : a.StopsAt b q)
    (hbefore : ∀ p < q, ¬ a.StopsAt b p) :
    a.agree b = Traversal.equalAt a.evaluate b.evaluate (ofOffset d r q) := by
  rw [agree_of_lt hlen]
  exact Walk.all_full_of_first (dim_lt_limit hlen) hq
    (fun p hp => equalAt_eq_true.mpr (hbefore p hp)) rfl fun h => equalAt_eq_true.mp h hstop

/-- Either no position decides a comparison, or there is a first one that does. -/
theorem exists_first_stop (a b : Expr α d r) :
    (∀ p < d ^ r, ¬ a.StopsAt b p) ∨ ∃ q < d ^ r, a.StopsAt b q ∧ ∀ p < q, ¬ a.StopsAt b p := by
  classical
  by_cases h : ∃ q, q < d ^ r ∧ a.StopsAt b q
  · obtain ⟨hlt, hstop⟩ := Nat.find_spec h
    refine .inr ⟨Nat.find h, hlt, hstop, fun p hp hstops => ?_⟩
    exact Nat.find_min h hp ⟨hp.trans hlt, hstops⟩
  · exact .inl fun p hp hstops => h ⟨p, hp, hstops⟩

/-! ## Comparing tensors -/

/-- Tensors are equal exactly if no position of the expressions that they are made of decides. -/
theorem beq_of_eval {t u : Tensor α d r} (ht : a.eval = .ok t) (hu : b.eval = .ok u) :
    (t == u) = true ↔ ∀ p < d ^ r, ¬ a.StopsAt b p := by
  obtain ⟨-, hx⟩ := eval_eq_ok.mp ht
  obtain ⟨-, hy⟩ := eval_eq_ok.mp hu
  have hentries : (t == u) = decide (∀ p (hp : p < d ^ r), (t.entries[p] == u.entries[p]) = true) :=
    Vector.beq_eq_decide t.entries u.entries
  rw [hentries, decide_eq_true_iff]
  refine forall_congr' fun p => forall_congr' fun hp => ?_
  rw [stopsAt_iff_of_ok (hx p hp) (hy p hp), Bool.not_eq_false]

/-- If both expressions can be materialized, comparing them is comparing the tensors. -/
theorem agree_of_eval {t u : Tensor α d r} (ht : a.eval = .ok t) (hu : b.eval = .ok u) :
    a.agree b = .ok (t == u) := by
  obtain ⟨hlen, hx⟩ := eval_eq_ok.mp ht
  obtain ⟨-, hy⟩ := eval_eq_ok.mp hu
  have hequal := beq_of_eval ht hu
  rcases exists_first_stop a b with hall | ⟨q, hq, hstop, hbefore⟩
  · rw [agree_of_forall hlen hall, hequal.mpr hall]
  · have hne : (t == u) = false := by
      rw [← Bool.not_eq_true, hequal]
      exact fun h => h q hq hstop
    rw [agree_of_first hlen hq hstop hbefore, Traversal.equalAt, hx q hq, hy q hq, hne,
      ← (stopsAt_iff_of_ok (hx q hq) (hy q hq)).mp hstop]
    rfl

/-- The outcome of a comparison, which traverses both expressions in step: if no position decides, they
agree. The first position that does decides alone: if both can be evaluated there, they do not agree, and
otherwise the comparison ends with the fault of the left expression or, if there is none, of the right
one. With more entries than can be counted nothing is compared. In every case, tensors of the values
compare alike if they can be made. -/
theorem agree_outcome (a b : Expr α d r) :
    a.agree b = (do (← a.traversal).agree (← b.traversal)) ∧
      (d ^ r < Word.limit →
        ((∀ p < d ^ r, ¬ a.StopsAt b p) → a.agree b = .ok true) ∧
        ∀ q < d ^ r, a.StopsAt b q → (∀ p < q, ¬ a.StopsAt b p) →
          (∀ x y, a.evaluate (ofOffset d r q) = .ok x → b.evaluate (ofOffset d r q) = .ok y →
            a.agree b = .ok false) ∧
          (∀ fault, a.evaluate (ofOffset d r q) = .error fault → a.agree b = .error fault) ∧
          ∀ x fault, a.evaluate (ofOffset d r q) = .ok x →
            b.evaluate (ofOffset d r q) = .error fault → a.agree b = .error fault) ∧
      (Word.limit ≤ d ^ r → a.agree b = .error (.overflow .multiplication)) ∧
      ∀ t u : Tensor α d r, a.eval = .ok t → b.eval = .ok u → a.agree b = .ok (t == u) := by
  refine ⟨agree_eq_traversals a b, fun hlen => ⟨agree_of_forall hlen, ?_⟩, agree_of_le,
    fun t u => agree_of_eval⟩
  intro q hq hstop hbefore
  rw [agree_of_first hlen hq hstop hbefore, Traversal.equalAt]
  refine ⟨fun x y hx hy => ?_, fun fault hx => ?_, fun x fault hx hy => ?_⟩
  · rw [hx, hy, Checked.ok_bind, Checked.ok_bind, (stopsAt_iff_of_ok hx hy).mp hstop]
    rfl
  · rw [hx]
    rfl
  · rw [hx, hy]
    rfl

/-- A sum of bytes that is too large behind its first component. Compared with a vector that differs there
already, it is not evaluated any further. -/
theorem agree_outcome_bytes :
    3 ^ 1 < Word.limit ∧ ∃ a b c : Expr (Bounded .unsigned8) 3 1,
      a.evaluate ⟨[0], rfl⟩ = .ok ⟨2, by decide, by decide⟩ ∧
      a.evaluate ⟨[1], rfl⟩ = .error (.overflow .addition) ∧
      a.agree b = .error (.overflow .addition) ∧ b.agree a = .error (.overflow .addition) ∧
      a.agree c = .ok false ∧ b.agree b = .ok true := by
  let byte : Fin 256 → Bounded .unsigned8 := fun n =>
    ⟨n.val, Int.natCast_nonneg _, Int.ofNat_le.mpr (Nat.le_of_lt_succ n.isLt)⟩
  let a : Expr (Bounded .unsigned8) 3 1 :=
    .sum (.tensor ⟨#v[byte 1, byte 200, byte 5]⟩) (.tensor ⟨#v[byte 1, byte 100, byte 5]⟩)
  let b : Expr (Bounded .unsigned8) 3 1 := .tensor ⟨#v[byte 2, byte 0, byte 0]⟩
  let c : Expr (Bounded .unsigned8) 3 1 := .tensor ⟨#v[byte 3, byte 0, byte 0]⟩
  have hlen : 3 ^ 1 < Word.limit := by decide
  have hzero : ¬ a.StopsAt b 0 := equalAt_eq_true.mp rfl
  have hzero' : ¬ b.StopsAt a 0 := equalAt_eq_true.mp rfl
  have hfirst : ∀ p < 1, ¬ a.StopsAt b p := fun p hp => Nat.lt_one_iff.mp hp ▸ hzero
  have hfirst' : ∀ p < 1, ¬ b.StopsAt a p := fun p hp => Nat.lt_one_iff.mp hp ▸ hzero'
  have hfault : a.evaluate (ofOffset 3 1 1) = .error (.overflow .addition) := rfl
  have hvalue : b.evaluate (ofOffset 3 1 1) = .ok (byte 0) := rfl
  have hdiffers : a.StopsAt c 0 := .inr (.inr ⟨byte 2, byte 3, rfl, rfl, rfl⟩)
  obtain ⟨-, hab, -⟩ := agree_outcome a b
  obtain ⟨-, hba, -⟩ := agree_outcome b a
  obtain ⟨-, hac, -⟩ := agree_outcome a c
  obtain ⟨-, -, -, hbb⟩ := agree_outcome b b
  refine ⟨hlen, a, b, c, rfl, rfl, ?_, ?_, ?_, ?_⟩
  · exact ((hab hlen).2 1 (by decide) (.inl ⟨_, hfault⟩) hfirst).2.1 _ hfault
  · exact ((hba hlen).2 1 (by decide) (.inr (.inl ⟨_, hfault⟩)) hfirst').2.2 _ _ hvalue hfault
  · exact ((hac hlen).2 0 (by decide) hdiffers (by simp)).1 _ _ rfl rfl
  · exact hbb _ _ rfl rfl

end Expr

end TensorMechanics
