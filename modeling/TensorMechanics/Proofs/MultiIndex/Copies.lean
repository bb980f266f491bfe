import Mathlib
import TensorMechanics.Proofs.MultiIndex.Enumeration

/-!
# Proofs: copies of a traversal

A traversal may be copied at any time, and every copy may be moved on, by single values or by passing
several. However this is done, a copy is determined by the number of indices that were consumed on the
way to it: it stands at that position, has the rest of the positions left, and reads next at the index
of its position. Consuming does not depend on whether an index could be read.

The invariant of a copy is that it consumed the first indices, in order, and stands behind them. One
call keeps it for all copies at once and touches a single one, and so does every sequence of calls.
-/

namespace TensorMechanics.Traversal

open MultiIndex

variable {β : Type} {d r : Nat}

/-! ## Calls -/

/-- The index that the next call consumes, if one is left. -/
def due (t : Traversal d r β) : List (MultiIndex r) :=
  match t.walk.step.1 with
  | .ok (some ix) => [ix]
  | _ => []

/-- The indices that are consumed by passing `k` values and reading the one behind them. -/
def passed : Nat → Traversal d r β → List (MultiIndex r)
  | 0, t => t.due
  | k + 1, t =>
    match t.next with
    | (.ok (some _), rest) => t.due ++ passed k rest
    | _ => t.due

/-- A traversal with its past. -/
structure Copy (d r : Nat) (β : Type) where
  traversal : Traversal d r β
  /-- The indices consumed by this copy and by those it was made from, the earliest first. -/
  history : List (MultiIndex r)

/-- The copy after reading the next value. -/
def Copy.next (s : Copy d r β) : Copy d r β :=
  ⟨s.traversal.next.2, s.history ++ s.traversal.due⟩

/-- The copy after reading the value behind the next `k` ones. -/
def Copy.nth (k : Nat) (s : Copy d r β) : Copy d r β :=
  ⟨(s.traversal.nth k).2, s.history ++ s.traversal.passed k⟩

/-- What may be asked of a copy. -/
inductive Call where
  | next
  | nth (k : Nat)
  | length
  | sizeHint
  /-- Makes a new copy, with a number of its own. -/
  | fork
  /-- Goes on from where another copy is. -/
  | restore (source : Nat)

/-- The copies after a call to copy `i`. A call to a copy that does not exist changes nothing, and the
lengths are answers that change nothing either. -/
def Call.apply (i : Nat) (copies : List (Copy d r β)) : Call → List (Copy d r β)
  | .next => copies.modify i Copy.next
  | .nth k => copies.modify i (Copy.nth k)
  | .length => copies
  | .sizeHint => copies
  | .fork => copies ++ copies[i]?.toList
  | .restore source => copies.modify i fun s => copies[source]?.getD s

/-- The copies after a sequence of calls, each to the copy with the given number. -/
def runCalls (calls : List (Nat × Call)) (copies : List (Copy d r β)) : List (Copy d r β) :=
  calls.foldl (fun copies call => call.2.apply call.1 copies) copies

/-! ## Traversals by position -/

section Position

variable (read : MultiIndex r → Checked β) {c : Nat}

theorem due_fromPosition (hdim : 0 < r → d < Word.limit) (hc : c < d ^ r) :
    (fromPosition read d c).due = [ofOffset d r c] := by
  rw [due, fromPosition, Walk.step_fromPosition hdim hc]

theorem due_fromPosition_of_le (hc : d ^ r ≤ c) : (fromPosition read d c).due = [] := by
  rw [due, fromPosition, Walk.step_fromPosition_of_le hc]

theorem nth_fromPosition_of_le (hc : d ^ r ≤ c) (k : Nat) :
    (fromPosition read d c).nth k = (.ok none, fromPosition read d c) := by
  cases k with
  | zero => exact next_fromPosition_of_le read hc
  | succ k => rw [nth, next_fromPosition_of_le read hc]

theorem passed_fromPosition_of_le (hc : d ^ r ≤ c) (k : Nat) :
    (fromPosition read d c).passed k = [] := by
  cases k with
  | zero => exact due_fromPosition_of_le read hc
  | succ k =>
    rw [passed, next_fromPosition_of_le read hc]
    exact due_fromPosition_of_le read hc

/-- All values from a position up to another one can be read. -/
def Readable (d c p : Nat) : Prop := ∀ q, c ≤ q → q < p → ∃ x, read (ofOffset d r q) = .ok x

/-- The answer to reading the value behind the next `k` ones from position `c` on, and the position
that is reached: the value is read, or there are too few, or an index on the way cannot be read. -/
inductive NthOutcome (d c k : Nat) : Checked (Option β) → Nat → Prop where
  | value {x : β} (hbefore : Readable read d c (c + k)) (hk : c + k < d ^ r)
      (hread : read (ofOffset d r (c + k)) = .ok x) : NthOutcome d c k (.ok (some x)) (c + k + 1)
  | exhausted (hbefore : Readable read d c (d ^ r)) (hk : d ^ r ≤ c + k) :
      NthOutcome d c k (.ok none) (d ^ r)
  | fault {p : Nat} {fault : Fault} (hbefore : Readable read d c p) (hc : c ≤ p) (hk : p ≤ c + k)
      (hp : p < d ^ r) (hread : read (ofOffset d r p) = .error fault) :
      NthOutcome d c k (.error fault) (p + 1)

variable {read}

theorem Readable.cons {p : Nat} {x : β} (hread : read (ofOffset d r c) = .ok x)
    (h : Readable read d (c + 1) p) : Readable read d c p := by
  intro q hcq hqp
  rcases hcq.eq_or_lt with rfl | hlt
  · exact ⟨x, hread⟩
  · exact h q hlt hqp

/-- Passing a value that can be read leaves one value less to pass. -/
theorem NthOutcome.succ {k p : Nat} {x : β} {answer : Checked (Option β)}
    (hread : read (ofOffset d r c) = .ok x) (h : NthOutcome read d (c + 1) k answer p) :
    NthOutcome read d c (k + 1) answer p := by
  have hshift : c + 1 + k = c + (k + 1) := by omega
  cases h with
  | value hbefore hk hvalue =>
    rw [hshift] at hbefore hk hvalue ⊢
    exact .value (hbefore.cons hread) hk hvalue
  | exhausted hbefore hk => exact .exhausted (hbefore.cons hread) (by omega)
  | fault hbefore hc hk hp hfault =>
    exact .fault (hbefore.cons hread) (by omega) (by omega) hp hfault

end Position

/-! ## Copies by position -/

namespace Copy

/-- The copy that consumed the first `c` indices. -/
def atPosition (read : MultiIndex r → Checked β) (d c : Nat) : Copy d r β :=
  ⟨fromPosition read d c, (inOrder d r).take c⟩

section Position

variable {read : MultiIndex r → Checked β} {c : Nat}

theorem length_history_atPosition (hc : c ≤ d ^ r) : (atPosition read d c).history.length = c := by
  simp [atPosition, inOrder, hc]

theorem take_succ_inOrder (hc : c < d ^ r) :
    (inOrder d r).take (c + 1) = (inOrder d r).take c ++ [ofOffset d r c] := by
  rw [List.take_add_one, getElem?_inOrder, if_pos hc]
  rfl

theorem next_atPosition (hdim : 0 < r → d < Word.limit) (hc : c < d ^ r) :
    (atPosition read d c).next = atPosition read d (c + 1) := by
  rw [next, atPosition, atPosition, next_fromPosition read hdim hc, due_fromPosition read hdim hc,
    take_succ_inOrder hc]

theorem next_atPosition_of_le (hc : d ^ r ≤ c) :
    (atPosition read d c).next = atPosition read d c := by
  rw [next, atPosition, next_fromPosition_of_le read hc, due_fromPosition_of_le read hc,
    List.append_nil]

/-- Passing a value that can be read is reading it first. -/
theorem nth_succ_atPosition (hdim : 0 < r → d < Word.limit) (hc : c < d ^ r) {x : β}
    (hread : read (ofOffset d r c) = .ok x) (k : Nat) :
    (fromPosition read d c).nth (k + 1) = (fromPosition read d (c + 1)).nth k ∧
      (atPosition read d c).nth (k + 1) = (atPosition read d (c + 1)).nth k := by
  have hnext : (fromPosition read d c).next = (.ok (some x), fromPosition read d (c + 1)) := by
    rw [next_fromPosition read hdim hc, hread]
    rfl
  have hnth : (fromPosition read d c).nth (k + 1) = (fromPosition read d (c + 1)).nth k := by
    rw [Traversal.nth, hnext]
  have hpassed : (fromPosition read d c).passed (k + 1) =
      [ofOffset d r c] ++ (fromPosition read d (c + 1)).passed k := by
    rw [passed, hnext, due_fromPosition read hdim hc]
  refine ⟨hnth, ?_⟩
  rw [nth, nth, atPosition, atPosition, hnth, hpassed, take_succ_inOrder hc, List.append_assoc]

/-- An index that cannot be read is consumed, and nothing behind it is. -/
theorem nth_atPosition_of_error (hdim : 0 < r → d < Word.limit) (hc : c < d ^ r) {fault : Fault}
    (hread : read (ofOffset d r c) = .error fault) (k : Nat) :
    (fromPosition read d c).nth k = (.error fault, fromPosition read d (c + 1)) ∧
      (atPosition read d c).nth k = atPosition read d (c + 1) := by
  have hnext : (fromPosition read d c).next = (.error fault, fromPosition read d (c + 1)) := by
    rw [next_fromPosition read hdim hc, hread]
    rfl
  have hnth : (fromPosition read d c).nth k = (.error fault, fromPosition read d (c + 1)) := by
    cases k with
    | zero => exact hnext
    | succ k => rw [Traversal.nth, hnext]
  have hpassed : (fromPosition read d c).passed k = [ofOffset d r c] := by
    cases k with
    | zero => exact due_fromPosition read hdim hc
    | succ k => rw [passed, hnext, due_fromPosition read hdim hc]
  refine ⟨hnth, ?_⟩
  rw [nth, atPosition, atPosition, hnth, hpassed, take_succ_inOrder hc]

theorem nth_atPosition_of_le (hc : d ^ r ≤ c) (k : Nat) :
    (atPosition read d c).nth k = atPosition read d c := by
  rw [nth, atPosition, nth_fromPosition_of_le read hc, passed_fromPosition_of_le read hc,
    List.append_nil]

/-- At the end and at an index that cannot be read, it makes no difference how many values are to be
passed. -/
theorem nth_atPosition_of_stop (hdim : 0 < r → d < Word.limit) (k : Nat) (hc : c ≤ d ^ r)
    (hstop : c = d ^ r ∨ ∃ fault, read (ofOffset d r c) = .error fault) :
    ∃ p ≤ d ^ r, (atPosition read d c).nth k = atPosition read d p ∧
      NthOutcome read d c k ((fromPosition read d c).nth k).1 p := by
  have hbefore : Readable read d c c := fun q hcq hqc => absurd hcq (Nat.not_le.mpr hqc)
  rcases hc.lt_or_eq with hlt | rfl
  · obtain ⟨fault, hread⟩ := hstop.resolve_left hlt.ne
    obtain ⟨hnth, hcopy⟩ := nth_atPosition_of_error hdim hlt hread k
    refine ⟨c + 1, hlt, hcopy, ?_⟩
    rw [hnth]
    exact .fault hbefore le_rfl (Nat.le_add_right c k) hlt hread
  · refine ⟨d ^ r, le_rfl, nth_atPosition_of_le le_rfl k, ?_⟩
    rw [nth_fromPosition_of_le read le_rfl]
    exact .exhausted hbefore (Nat.le_add_right (d ^ r) k)

theorem stops_or_reads (read : MultiIndex r → Checked β) (hc : c ≤ d ^ r) :
    (c = d ^ r ∨ ∃ fault, read (ofOffset d r c) = .error fault) ∨
      c < d ^ r ∧ ∃ x, read (ofOffset d r c) = .ok x := by
  rcases hc.lt_or_eq with hlt | heq
  · cases hread : read (ofOffset d r c) with
    | error fault => exact .inl (.inr ⟨fault, rfl⟩)
    | ok x => exact .inr ⟨hlt, x, rfl⟩
  · exact .inl (.inl heq)

/-- Reading the value behind the next `k` ones consumes the indices up to the one where it stops. -/
theorem nth_atPosition (hdim : 0 < r → d < Word.limit) (k : Nat) (hc : c ≤ d ^ r) :
    ∃ p ≤ d ^ r, (atPosition read d c).nth k = atPosition read d p ∧
      NthOutcome read d c k ((fromPosition read d c).nth k).1 p := by
  induction k generalizing c with
  | zero =>
    rcases stops_or_reads read hc with hstop | ⟨hlt, x, hread⟩
    · exact nth_atPosition_of_stop hdim 0 hc hstop
    · refine ⟨c + 1, hlt, next_atPosition hdim hlt, ?_⟩
      have hbefore : Readable read d c c := fun q hcq hqc => absurd hcq (Nat.not_le.mpr hqc)
      rw [Traversal.nth, next_fromPosition read hdim hlt, hread]
      exact .value hbefore hlt hread
  | succ k ih =>
    rcases stops_or_reads read hc with hstop | ⟨hlt, x, hread⟩
    · exact nth_atPosition_of_stop hdim (k + 1) hc hstop
    · obtain ⟨hnth, hcopy⟩ := nth_succ_atPosition hdim hlt hread k
      obtain ⟨p, hp, hstop, houtcome⟩ := ih (Nat.succ_le_of_lt hlt)
      refine ⟨p, hp, hcopy.trans hstop, ?_⟩
      rw [hnth]
      exact houtcome.succ hread

end Position

/-! ## Every sequence of calls -/

/-- What is known of a copy from the indices consumed along its history: they are the first ones, it has
the others left, and what it answers next starts behind them. -/
structure InOrder (read : MultiIndex r → Checked β) (s : Copy d r β) : Prop where
  history_eq : s.history = (inOrder d r).take s.history.length
  history_le : s.history.length ≤ d ^ r
  length_eq : s.traversal.length = d ^ r - s.history.length
  sizeHint_eq : s.traversal.sizeHint = (d ^ r - s.history.length, d ^ r - s.history.length)
  next_eq : s.history.length < d ^ r → ∃ ix, unravel d r s.history.length = .ok ix ∧
    s.traversal.next.1 = some <$> read ix ∧ s.next.history = s.history ++ [ix]
  nth_outcome : ∀ k,
    NthOutcome read d s.history.length k (s.traversal.nth k).1 (s.nth k).history.length
  finished : d ^ r ≤ s.history.length → s.traversal.next = (.ok none, s.traversal) ∧
    ∀ k, s.traversal.nth k = (.ok none, s.traversal)
  offset_add_remaining : 0 < s.traversal.walk.remaining →
    ∃ p, s.traversal.walk.next.linearOffset d = .ok p ∧ p + s.traversal.walk.remaining = d ^ r

theorem inOrder_atPosition {read : MultiIndex r → Checked β} (hlen : d ^ r < Word.limit) {c : Nat}
    (hc : c ≤ d ^ r) : (atPosition read d c).InOrder read := by
  have hdim := MultiIndex.dim_lt_limit hlen
  have hhistory : (atPosition read d c).history.length = c := length_history_atPosition hc
  constructor
  case history_eq => rw [hhistory]; rfl
  case history_le => rw [hhistory]; exact hc
  case length_eq => rw [hhistory]; rfl
  case sizeHint_eq => rw [hhistory]; rfl
  case next_eq =>
    rw [hhistory]
    intro hlt
    refine ⟨ofOffset d r c, unravel_of_lt hlen hlt, ?_, ?_⟩
    · exact congrArg Prod.fst (next_fromPosition read hdim hlt)
    · rw [next_atPosition hdim hlt]
      exact take_succ_inOrder hlt
  case nth_outcome =>
    intro k
    obtain ⟨p, hp, hcopy, houtcome⟩ := nth_atPosition hdim k hc
    rw [hhistory, hcopy, length_history_atPosition hp]
    exact houtcome
  case finished =>
    rw [hhistory]
    intro hle
    exact ⟨next_fromPosition_of_le read hle, nth_fromPosition_of_le read hle⟩
  case offset_add_remaining =>
    intro hleft
    have hlt : c < d ^ r := Nat.lt_of_sub_pos hleft
    exact ⟨c, linearOffset_ofOffset hlen hlt, Nat.add_sub_cancel' hc⟩

end Copy

section Calls

variable {read : MultiIndex r → Checked β}

/-- Every copy stands behind the indices that it consumed. -/
def Placed (read : MultiIndex r → Checked β) (copies : List (Copy d r β)) : Prop :=
  ∀ s ∈ copies, ∃ c ≤ d ^ r, s = .atPosition read d c

theorem Placed.modify {copies : List (Copy d r β)} (h : Placed read copies) (i : Nat)
    {f : Copy d r β → Copy d r β} (hf : ∀ c ≤ d ^ r, ∃ c' ≤ d ^ r,
      f (.atPosition read d c) = .atPosition read d c') : Placed read (copies.modify i f) := by
  intro s hs
  obtain ⟨j, hj⟩ := List.mem_iff_getElem?.mp hs
  rw [List.getElem?_modify, Option.map_eq_map, Option.map_eq_some_iff] at hj
  obtain ⟨s', hs', hj⟩ := hj
  obtain ⟨c, hc, rfl⟩ := h s' (List.mem_of_getElem? hs')
  by_cases hij : i = j
  · obtain ⟨c', hc', hf⟩ := hf c hc
    rw [if_pos hij, hf] at hj
    exact ⟨c', hc', hj.symm⟩
  · rw [if_neg hij] at hj
    exact ⟨c, hc, hj.symm⟩

/-- One call keeps all copies in their places. -/
theorem Placed.apply {copies : List (Copy d r β)} (h : Placed read copies)
    (hdim : 0 < r → d < Word.limit) (i : Nat) (call : Call) : Placed read (call.apply i copies) := by
  cases call with
  | next =>
    refine h.modify i fun c hc => ?_
    rcases hc.lt_or_eq with hlt | rfl
    · exact ⟨c + 1, hlt, Copy.next_atPosition hdim hlt⟩
    · exact ⟨d ^ r, le_rfl, Copy.next_atPosition_of_le le_rfl⟩
  | nth k =>
    refine h.modify i fun c hc => ?_
    obtain ⟨p, hp, hcopy, -⟩ := Copy.nth_atPosition hdim k hc
    exact ⟨p, hp, hcopy⟩
  | length => exact h
  | sizeHint => exact h
  | fork =>
    intro s hs
    rcases List.mem_append.mp hs with hs | hs
    · exact h s hs
    · exact h s (List.mem_of_getElem? (Option.mem_toList.mp hs))
  | restore source =>
    refine h.modify i fun c hc => ?_
    cases hsource : copies[source]? with
    | none => exact ⟨c, hc, rfl⟩
    | some s => exact h s (List.mem_of_getElem? hsource)

theorem Placed.runCalls {copies : List (Copy d r β)} (h : Placed read copies)
    (hdim : 0 < r → d < Word.limit) (calls : List (Nat × Call)) :
    Placed read (runCalls calls copies) := by
  induction calls generalizing copies with
  | nil => exact h
  | cons call calls ih => exact ih (h.apply hdim call.1 call.2)

/-- A call only changes the copy that it is made to. -/
theorem getElem?_apply {copies : List (Copy d r β)} {i j : Nat} (hi : i < copies.length)
    (hne : j ≠ i) (call : Call) : (call.apply j copies)[i]? = copies[i]? := by
  cases call with
  | next => exact List.getElem?_modify_ne _ copies hne
  | nth k => exact List.getElem?_modify_ne _ copies hne
  | length => rfl
  | sizeHint => rfl
  | fork => exact List.getElem?_append_left hi
  | restore source => exact List.getElem?_modify_ne _ copies hne

theorem length_le_length_apply (copies : List (Copy d r β)) (j : Nat) (call : Call) :
    copies.length ≤ (call.apply j copies).length := by
  cases call with
  | next => exact (List.length_modify ..).ge
  | nth k => exact (List.length_modify ..).ge
  | length => exact le_rfl
  | sizeHint => exact le_rfl
  | fork => simp [Call.apply]
  | restore source => exact (List.length_modify ..).ge

/-- Calls to other copies leave a copy as it is. -/
theorem getElem?_runCalls {copies : List (Copy d r β)} {i : Nat} (hi : i < copies.length)
    {calls : List (Nat × Call)} (hne : ∀ call ∈ calls, call.1 ≠ i) :
    (Traversal.runCalls calls copies)[i]? = copies[i]? := by
  induction calls generalizing copies with
  | nil => rfl
  | cons call calls ih =>
    have hfirst := getElem?_apply hi (hne call List.mem_cons_self) call.2
    have hlength := length_le_length_apply copies call.1 call.2
    have hrest := ih (hi.trans_le hlength) fun c hc => hne c (List.mem_cons_of_mem call hc)
    exact hrest.trans hfirst

/-- Whatever is called of a traversal and its copies, every copy is in order: it consumed the first
indices, one for each value that was asked for, could be read or not, and its lengths, its next values and
its end are those of the position behind them. Copies do not affect each other. -/
theorem copies_in_order (hlen : d ^ r < Word.limit) (read : MultiIndex r → Checked β) :
    ∃ t : Traversal d r β, start read = .ok t ∧ ∀ calls : List (Nat × Call),
      (∀ s ∈ runCalls calls [⟨t, []⟩], s.InOrder read) ∧
      ∀ (later : List (Nat × Call)) (i : Nat), i < (runCalls calls [⟨t, []⟩]).length →
        (∀ call ∈ later, call.1 ≠ i) →
        (runCalls (calls ++ later) [⟨t, []⟩])[i]? = (runCalls calls [⟨t, []⟩])[i]? := by
  have hdim := MultiIndex.dim_lt_limit hlen
  have hplaced : Placed read [⟨fromPosition read d 0, []⟩] := by
    intro s hs
    obtain rfl := List.mem_singleton.mp hs
    exact ⟨0, Nat.zero_le _, rfl⟩
  refine ⟨fromPosition read d 0, start_of_lt read hlen, fun calls => ⟨fun s hs => ?_, fun later i hi hne => ?_⟩⟩
  · obtain ⟨c, hc, rfl⟩ := hplaced.runCalls hdim calls s hs
    exact Copy.inOrder_atPosition hlen hc
  · rw [runCalls, List.foldl_append]
    exact getElem?_runCalls hi hne

/-- Quotients by the components of a vector: the first cannot be read, and is consumed. The copy that was
made behind it stays there while the other one goes on to the end. -/
theorem copies_in_order_quotients :
    3 ^ 1 < Word.limit ∧ ∃ t : Traversal 3 1 Nat,
      start (fun ix => Word.div 6 ix.components.sum) = .ok t ∧ t.next.1 = .error .zeroDivisor ∧
      ∃ s s' : Copy 3 1 Nat, runCalls [(0, .next), (0, .fork), (0, .nth 1)] [⟨t, []⟩] = [s, s'] ∧
        s.traversal.length = 0 ∧ s.traversal.next.1 = .ok none ∧
        s'.traversal.length = 2 ∧ s'.traversal.next.1 = .ok (some 6) := by
  have hlen : 3 ^ 1 < Word.limit := by decide
  obtain ⟨t, ht, hcalls⟩ := copies_in_order hlen fun ix => Word.div 6 ix.components.sum
  have hfull : start (fun ix => Word.div 6 ix.components.sum) =
      .ok ⟨fun ix => Word.div 6 ix.components.sum, .full 3 1⟩ := rfl
  obtain rfl := Except.ok.inj (hfull.symm.trans ht)
  have hcopies := (hcalls [(0, .next), (0, .fork), (0, .nth 1)]).1
  refine ⟨hlen, _, ht, rfl, _, _, rfl, ?_, ?_, ?_, ?_⟩
  · exact (hcopies _ List.mem_cons_self).length_eq
  · exact congrArg Prod.fst ((hcopies _ List.mem_cons_self).finished le_rfl).1
  · exact (hcopies _ (List.mem_cons_of_mem _ List.mem_cons_self)).length_eq
  · obtain ⟨ix, hix, hnext, -⟩ :=
      (hcopies _ (List.mem_cons_of_mem _ List.mem_cons_self)).next_eq (by decide)
    have hone : unravel 3 1 1 = .ok ⟨[1], rfl⟩ := rfl
    obtain rfl := Except.ok.inj (hone.symm.trans hix)
    exact hnext

end Calls

end TensorMechanics.Traversal
