import Mathlib
import TensorMechanics.Proofs.Expr.Evaluation
import TensorMechanics.Proofs.Tensor.Views

/-!
# Proofs: access by any index

Entries are read, evaluated and written at any index. An access faults exactly if a component of its
index is too large, whatever position the components may add up to, and then nothing has changed.
Indices in bounds have positions of their own. So after any sequence of accesses the entry at an index
is what was last written there, or what it was in the beginning.
-/

namespace TensorMechanics.Tensor

open MultiIndex

variable {α : Type} {d r : Nat}

/-! ## Writing an entry -/

section Write

variable {t u : Tensor α d r} {ix jx : MultiIndex r} {x : α}

theorem write_ofOffset (t : Tensor α d r) (hlen : d ^ r < Word.limit) {p : Nat} (hp : p < d ^ r)
    (x : α) : t.write (ofOffset d r p) x = .ok ⟨t.entries.set p x hp⟩ := by
  simp only [write, linearOffset_ofOffset hlen hp]
  exact dif_pos hp

theorem write_of_not_inBounds (t : Tensor α d r) (h : ¬ ix.InBounds d) (x : α) :
    t.write ix x = .error (.indexOutOfBounds ix.components d) := by
  simp only [write, linearOffset_of_not_inBounds h]

/-- After a write, the entry at its index is the value written and all others are as before. -/
theorem read_of_write (hlen : d ^ r < Word.limit) (h : t.write ix x = .ok u) (hjx : jx.InBounds d) :
    u.read jx = if ix = jx then .ok x else t.read jx := by
  by_cases hix : ix.InBounds d
  swap
  · rw [write_of_not_inBounds t hix] at h
    cases h
  obtain ⟨p, hp, rfl⟩ := hix.exists_ofOffset
  obtain ⟨q, hq, rfl⟩ := hjx.exists_ofOffset
  rw [write_ofOffset t hlen hp] at h
  obtain rfl := Except.ok.inj h
  rw [read_ofOffset _ hlen hq, read_ofOffset t hlen hq]
  by_cases hpq : p = q
  · subst hpq
    rw [if_pos rfl, Vector.getElem_set_self]
  · have hne : ofOffset d r p ≠ ofOffset d r q := by
      intro heq
      have hoffset := congrArg (offset d) heq
      rw [offset_ofOffset hp, offset_ofOffset hq] at hoffset
      exact hpq hoffset
    rw [if_neg hne, Vector.getElem_set_ne _ _ hpq]

end Write

/-! ## Accesses -/

/-- An access to an entry of a tensor. -/
inductive Access (α : Type) (r : Nat) where
  | read (ix : MultiIndex r)
  /-- Evaluates the tensor as an expression. -/
  | evaluate (ix : MultiIndex r)
  | write (ix : MultiIndex r) (x : α)

namespace Access

/-- The index of an access. -/
def index : Access α r → MultiIndex r
  | .read ix => ix
  | .evaluate ix => ix
  | .write ix _ => ix

/-- What an access writes at an index, if it does. -/
def written? (ix : MultiIndex r) : Access α r → Option α
  | .read _ => none
  | .evaluate _ => none
  | .write jx x => if jx = ix then some x else none

/-- Makes an access. A read or an evaluation answers with a value. An access that faults leaves the
tensor as it is. -/
def run [Scalar α] (t : Tensor α d r) : Access α r → Checked (Option α) × Tensor α d r
  | .read ix => (some <$> t.read ix, t)
  | .evaluate ix => (some <$> (Expr.tensor t).evaluate ix, t)
  | .write ix x =>
    match t.write ix x with
    | .ok u => (.ok none, u)
    | .error fault => (.error fault, t)

end Access

/-- The value that was last written at an index by a sequence of accesses. -/
def lastWritten? (ix : MultiIndex r) (accesses : List (Access α r)) : Option α :=
  accesses.reverse.findSome? (Access.written? ix)

theorem lastWritten?_concat (ix : MultiIndex r) (accesses : List (Access α r)) (a : Access α r) :
    lastWritten? ix (accesses ++ [a]) = (a.written? ix).or (lastWritten? ix accesses) := by
  rw [lastWritten?, List.reverse_append, List.findSome?_append, List.reverse_singleton,
    List.findSome?_singleton]
  rfl

section Accesses

variable [Scalar α]

/-- The tensor after a sequence of accesses. -/
def after (t : Tensor α d r) (accesses : List (Access α r)) : Tensor α d r :=
  accesses.foldl (fun t a => (a.run t).2) t

variable {t : Tensor α d r} {ix : MultiIndex r}

theorem run_of_not_inBounds (t : Tensor α d r) {a : Access α r} (h : ¬ a.index.InBounds d) :
    a.run t = (.error (.indexOutOfBounds a.index.components d), t) := by
  cases a with
  | read ix =>
    have hix : ¬ ix.InBounds d := h
    rw [Access.run, read_of_not_inBounds t hix]
    rfl
  | evaluate ix =>
    have hix : ¬ ix.InBounds d := h
    rw [Access.run, Expr.evaluate, read_of_not_inBounds t hix]
    rfl
  | write ix x =>
    have hix : ¬ ix.InBounds d := h
    rw [Access.run, write_of_not_inBounds t hix]
    rfl

theorem exists_run_of_inBounds (t : Tensor α d r) (hlen : d ^ r < Word.limit) {a : Access α r}
    (h : a.index.InBounds d) : ∃ answer u, a.run t = (.ok answer, u) := by
  obtain ⟨p, hp, hix⟩ := h.exists_ofOffset
  cases a with
  | read ix =>
    obtain rfl : ix = ofOffset d r p := hix
    rw [Access.run, t.read_ofOffset hlen hp]
    exact ⟨_, _, rfl⟩
  | evaluate ix =>
    obtain rfl : ix = ofOffset d r p := hix
    rw [Access.run, Expr.evaluate, t.read_ofOffset hlen hp]
    exact ⟨_, _, rfl⟩
  | write ix x =>
    obtain rfl : ix = ofOffset d r p := hix
    rw [Access.run, t.write_ofOffset hlen hp]
    exact ⟨_, _, rfl⟩

/-- One access changes the entry at an index in bounds only by writing there. -/
theorem read_run (t : Tensor α d r) (hlen : d ^ r < Word.limit) (a : Access α r) (hix : ix.InBounds d) :
    (a.run t).2.read ix = (a.written? ix).elim (t.read ix) .ok := by
  cases a with
  | read jx => rfl
  | evaluate jx => rfl
  | write jx x =>
    rw [Access.run, Access.written?]
    cases hwrite : t.write jx x with
    | ok u =>
      rw [read_of_write hlen hwrite hix]
      by_cases heq : jx = ix
      · rw [if_pos heq, if_pos heq]
        rfl
      · rw [if_neg heq, if_neg heq]
        rfl
    | error fault =>
      have hne : jx ≠ ix := by
        rintro rfl
        obtain ⟨p, hp, rfl⟩ := hix.exists_ofOffset
        rw [t.write_ofOffset hlen hp] at hwrite
        cases hwrite
      rw [if_neg hne]
      rfl

/-- After any accesses, an entry is what was last written there, or else what it was. -/
theorem read_after (hlen : d ^ r < Word.limit) (hix : ix.InBounds d) {x : α} (hx : t.read ix = .ok x)
    (accesses : List (Access α r)) :
    (t.after accesses).read ix = .ok ((lastWritten? ix accesses).getD x) := by
  induction accesses using List.reverseRecOn with
  | nil => exact hx
  | append_singleton accesses a ih =>
    have hstep : t.after (accesses ++ [a]) = (a.run (t.after accesses)).2 := by
      rw [after, List.foldl_append]
      rfl
    rw [hstep, read_run _ hlen a hix, ih, lastWritten?_concat]
    cases a.written? ix with
    | none => rfl
    | some y => rfl

/-- After any sequence of accesses, one more faults exactly if a component of its index is not below the
dimension, and leaves the tensor unchanged then. The entry at an index in bounds is the one that was last
written at exactly this index, or the initial one if none was, for reading as for evaluating; and writing
there leaves what is read at all other indices. -/
theorem accesses_isolated (hlen : d ^ r < Word.limit) (t : Tensor α d r)
    (accesses : List (Access α r)) :
    (∀ a : Access α r,
      ((∃ fault, (a.run (t.after accesses)).1 = .error fault) ↔ ∃ i ∈ a.index.components, d ≤ i) ∧
      ((∃ i ∈ a.index.components, d ≤ i) → a.run (t.after accesses) =
        (.error (.indexOutOfBounds a.index.components d), t.after accesses))) ∧
    ∀ ix : MultiIndex r, ix.InBounds d → ∃ x₀, t.toList[ix.offset d]? = some x₀ ∧
      (Access.read ix).run (t.after accesses) =
        (.ok (some ((lastWritten? ix accesses).getD x₀)), t.after accesses) ∧
      (Access.evaluate ix).run (t.after accesses) =
        (.ok (some ((lastWritten? ix accesses).getD x₀)), t.after accesses) ∧
      ∀ x, ∃ u, (Access.write ix x).run (t.after accesses) = (.ok none, u) ∧ u.read ix = .ok x ∧
        ∀ jx ≠ ix, u.read jx = (t.after accesses).read jx := by
  constructor
  · intro a
    rw [← not_inBounds_iff]
    refine ⟨⟨?_, fun h => ?_⟩, run_of_not_inBounds _⟩
    · rintro ⟨fault, hfault⟩ h
      obtain ⟨answer, u, hrun⟩ := exists_run_of_inBounds (t.after accesses) hlen h
      rw [hrun] at hfault
      cases hfault
    · exact ⟨_, congrArg Prod.fst (run_of_not_inBounds (t.after accesses) h)⟩
  · intro ix hix
    obtain ⟨p, hp, rfl⟩ := hix.exists_ofOffset
    have hread := read_after hlen hix (t.read_ofOffset hlen hp) accesses
    refine ⟨t.entries[p], ?_, ?_, ?_, fun x => ?_⟩
    · rw [offset_ofOffset hp, t.getElem?_toList hp]
    · rw [Access.run, hread]
      rfl
    · rw [Access.run, Expr.evaluate, hread]
      rfl
    · have hwrite := (t.after accesses).write_ofOffset hlen hp x
      refine ⟨_, by rw [Access.run, hwrite], ?_, fun jx hne => ?_⟩
      · rw [read_of_write hlen hwrite hix, if_pos rfl]
      · by_cases hjx : jx.InBounds d
        · rw [read_of_write hlen hwrite hjx, if_neg hne.symm]
        · rw [read_of_not_inBounds _ hjx, read_of_not_inBounds _ hjx]

end Accesses

/-- The components `0, 2` of an index of a square matrix would add up to the position of the entry at
`1, 0`, which is still what was written there. -/
theorem accesses_isolated_square :
    2 ^ 2 < Word.limit ∧ ∃ t u : Tensor (Bounded .signed64) 2 2,
      u = t.after [.write ⟨[1, 0], rfl⟩ ⟨5, by decide, by decide⟩,
        .write ⟨[0, 2], rfl⟩ ⟨7, by decide, by decide⟩] ∧
      (Access.write ⟨[0, 2], rfl⟩ ⟨7, by decide, by decide⟩).run u =
        (.error (.indexOutOfBounds [0, 2] 2), u) ∧
      (Access.read ⟨[1, 0], rfl⟩).run u = (.ok (some ⟨5, by decide, by decide⟩), u) ∧
      (Access.evaluate ⟨[0, 1], rfl⟩).run u = (.ok (some Scalar.zero), u) := by
  have hlen : 2 ^ 2 < Word.limit := by decide
  obtain ⟨hfaults, hentries⟩ := accesses_isolated hlen (Tensor.zeros (Bounded .signed64) 2 2)
    [.write ⟨[1, 0], rfl⟩ ⟨5, by decide, by decide⟩, .write ⟨[0, 2], rfl⟩ ⟨7, by decide, by decide⟩]
  obtain ⟨x, -, hread, -⟩ := hentries ⟨[1, 0], rfl⟩ (by decide)
  obtain ⟨y, hy, -, hevaluate, -⟩ := hentries ⟨[0, 1], rfl⟩ (by decide)
  obtain rfl : Scalar.zero = y := Option.some.inj hy
  exact ⟨hlen, _, _, rfl, (hfaults (.write ⟨[0, 2], rfl⟩ _)).2 ⟨2, by decide, by decide⟩, hread,
    hevaluate⟩

end TensorMechanics.Tensor
