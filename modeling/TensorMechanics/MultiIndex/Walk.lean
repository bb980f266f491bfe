import TensorMechanics.MultiIndex

/-!
# Walks

A walk visits the indices of a tensor in row-major order. It keeps the index that comes next and
the number of indices that are left, and moves on by `MultiIndex.increment`.

`Walk.start` is the walk over all indices; it faults if their number is no index word. A walk is a
value: moving a copy leaves the other where it was. `Walk.foldToLast` visits indices without counting
them: it goes on until an index has no successor.
-/

namespace TensorMechanics

/-- A position in the sequence of all indices of dimension `d` and rank `r`. -/
structure Walk (d r : Nat) where
  /-- The index that is visited next, if one is left. -/
  next : MultiIndex r
  /-- The number of indices that are left. -/
  remaining : Nat
  deriving DecidableEq

namespace Walk

variable {d r : Nat} {β : Type}

/-- The walk over all indices, however many they are. -/
def full (d r : Nat) : Walk d r := ⟨.zeros r, Nat.pow d r⟩

/-- The walk over all indices, if their number is an index word. -/
def start (d r : Nat) : Checked (Walk d r) :=
  match storageLength d r with
  | .ok len => .ok ⟨.zeros r, len⟩
  | .error fault => .error fault

/-- Visits an index: the answer is the index, or nothing at the end. -/
def step (w : Walk d r) : Checked (Option (MultiIndex r)) × Walk d r :=
  if w.remaining = 0 then
    (.ok none, w)
  else
    match w.next.increment d with
    | (.ok _, successor) => (.ok (some w.next), ⟨successor, w.remaining - 1⟩)
    | (.error fault, successor) => (.error fault, { w with next := successor })

theorem remaining_lt_of_step {w rest : Walk d r} {ix : MultiIndex r}
    (h : w.step = (.ok (some ix), rest)) : rest.remaining < w.remaining := by
  unfold step at h
  split at h
  next => cases h
  next hleft =>
    split at h
    next =>
      obtain rfl := (Prod.mk.inj h).2
      exact Nat.sub_one_lt hleft
    next => cases h

/-- Visits `n` indices from `ix` on, threading a value through. -/
def foldFrom (d : Nat) (f : β → MultiIndex r → Checked β) : Nat → MultiIndex r → β → Checked β
  | 0, _, acc => .ok acc
  | n + 1, ix, acc =>
    match f acc ix with
    | .error fault => .error fault
    | .ok acc =>
      match ix.increment d with
      | (.ok _, successor) => foldFrom d f n successor acc
      | (.error fault, _) => .error fault

/-- Visits the indices that are left, threading a value through. -/
def foldl (f : β → MultiIndex r → Checked β) (init : β) (w : Walk d r) : Checked β :=
  foldFrom d f w.remaining w.next init

/-- Visits `ix` and its successors, threading a value through, up to the last index. An index is visited
before it is known whether another one follows, so one is visited also where there are no indices at
all. -/
def foldToLast (d : Nat) (f : β → MultiIndex r → Checked β) (ix : MultiIndex r) (acc : β) : Checked β :=
  match f acc ix with
  | .error fault => .error fault
  | .ok acc =>
    match _ : ix.increment d with
    | (.ok true, successor) => foldToLast d f successor acc
    | (.ok false, _) => .ok acc
    | (.error fault, _) => .error fault
termination_by MultiIndex.ahead d ix.components
decreasing_by exact MultiIndex.ahead_increment ‹_›

theorem foldToLast_eq (f : β → MultiIndex r → Checked β) (ix : MultiIndex r) (acc : β) :
    foldToLast d f ix acc =
      match f acc ix with
      | .error fault => .error fault
      | .ok acc =>
        match ix.increment d with
        | (.ok true, successor) => foldToLast d f successor acc
        | (.ok false, _) => .ok acc
        | (.error fault, _) => .error fault := by
  rw [foldToLast]
  split
  next => rfl
  next => split <;> simp only [*]

/-- Visits `n` indices from `ix` on, until a test fails. -/
def allFrom (d : Nat) (p : MultiIndex r → Checked Bool) : Nat → MultiIndex r → Checked Bool
  | 0, _ => .ok true
  | n + 1, ix =>
    match p ix with
    | .error fault => .error fault
    | .ok false => .ok false
    | .ok true =>
      match ix.increment d with
      | (.ok _, successor) => allFrom d p n successor
      | (.error fault, _) => .error fault

/-- Whether a test holds at every index that is left. It stops at the first index where the test
fails. -/
def all (p : MultiIndex r → Checked Bool) (w : Walk d r) : Checked Bool :=
  allFrom d p w.remaining w.next

end Walk

end TensorMechanics
