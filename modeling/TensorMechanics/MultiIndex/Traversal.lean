import TensorMechanics.MultiIndex.Walk

/-!
# Traversals

A traversal reads a value at every index of a walk. Reading may fault; an index is consumed before
it is read, so a traversal goes on behind a fault. Nothing is read before it is asked for.

`Traversal.next` and `Traversal.nth` move the traversal. `Traversal.last?`, `Traversal.count` and
`Traversal.toList` read everything that is left and are answers about a copy. `Traversal.agree` reads two
traversals in step.
-/

namespace TensorMechanics

/-- A walk together with the reading of an index. -/
structure Traversal (d r : Nat) (β : Type) where
  /-- The value at an index. -/
  read : MultiIndex r → Checked β
  /-- The indices that are left. -/
  walk : Walk d r

namespace Traversal

variable {d r : Nat} {β γ : Type}

/-- The traversal of all indices that answers the value at each. -/
def start (read : MultiIndex r → Checked β) : Checked (Traversal d r β) :=
  match Walk.start d r with
  | .ok walk => .ok ⟨read, walk⟩
  | .error fault => .error fault

/-- The traversal of all indices that answers the indices themselves. -/
def indices (d r : Nat) : Checked (Traversal d r (MultiIndex r)) := start .ok

/-- Reads the next value. -/
def next (t : Traversal d r β) : Checked (Option β) × Traversal d r β :=
  match t.walk.step with
  | (.ok (some ix), walk) =>
    match t.read ix with
    | .ok x => (.ok (some x), { t with walk })
    | .error fault => (.error fault, { t with walk })
  | (.ok none, walk) => (.ok none, { t with walk })
  | (.error fault, walk) => (.error fault, { t with walk })

/-- Reads the value behind the next `k` ones. It stops early at the end and at a fault. -/
def nth : Nat → Traversal d r β → Checked (Option β) × Traversal d r β
  | 0, t => t.next
  | k + 1, t =>
    match t.next with
    | (.ok (some _), t) => nth k t
    | stopped => stopped

/-- The number of values that are left. -/
def length (t : Traversal d r β) : Nat := t.walk.remaining

/-- The least and the greatest number of values that may follow. -/
def sizeHint (t : Traversal d r β) : Nat × Nat := (t.length, t.length)

/-- Reads everything that is left, threading a value through. -/
def foldl (f : γ → β → γ) (init : γ) (t : Traversal d r β) : Checked γ :=
  t.walk.foldl (fun acc ix => (f acc) <$> t.read ix) init

/-- The last value, if one is left. -/
def last? (t : Traversal d r β) : Checked (Option β) := t.foldl (fun _ x => some x) none

/-- The number of values, found by reading them. -/
def count (t : Traversal d r β) : Checked Nat := t.foldl (fun n _ => n + 1) 0

/-- All values that are left, in order. -/
def toList (t : Traversal d r β) : Checked (List β) :=
  List.reverse <$> t.foldl (fun xs x => x :: xs) []

/-! ## Two traversals in step -/

theorem length_lt_of_next {t rest : Traversal d r β} {x : β} (h : t.next = (.ok (some x), rest)) :
    rest.length < t.length := by
  have hstep : ∃ ix, t.walk.step = (.ok (some ix), rest.walk) := by
    unfold next at h
    split at h
    next ix walk hwalk =>
      split at h
      next =>
        obtain rfl := (Prod.mk.inj h).2
        exact ⟨ix, hwalk⟩
      next => cases h
    next => cases h
    next => cases h
  obtain ⟨ix, hstep⟩ := hstep
  exact Walk.remaining_lt_of_step hstep

/-- Whether two traversals have equal values, and as many. Each reads its next value in turn, the left
one first, and neither goes on behind the first difference. -/
def agree [BEq β] (s t : Traversal d r β) : Checked Bool :=
  match _ : s.next with
  | (.error fault, _) => .error fault
  | (.ok none, _) => Option.isNone <$> t.next.1
  | (.ok (some x), s') =>
    match t.next with
    | (.error fault, _) => .error fault
    | (.ok none, _) => .ok false
    | (.ok (some y), t') => if x == y then agree s' t' else .ok false
termination_by s.length
decreasing_by exact length_lt_of_next ‹_›

end Traversal

end TensorMechanics
