import Mathlib
import TensorMechanics.Proofs.Product.Entrywise

/-!
# Proofs: what tasks do to a matrix

A task works on the matrix that it is called with by actions: it replaces entries, and it takes and
gives back the locks of forks. Replaying a list of actions computes every entry by the steps that are
made at it, in order, whatever is done to the other entries in between.
-/

namespace TensorMechanics.Product

open ColumnMatrix

variable {α : Type} {m n : Nat}

/-- What a task does to a matrix. A lock has the name of its fork, the halves that lead to it, the
innermost one first. -/
inductive Action (α : Type) (m n : Nat) where
  /-- Takes the lock of a fork. -/
  | acquire (lock : List Half)
  /-- Replaces an entry by what is computed from it. -/
  | update (row : Fin m) (column : Fin n) (step : α → Checked α)
  /-- Gives back the lock of a fork. -/
  | release (lock : List Half)

namespace Action

def apply (c : ColumnMatrix α m n) : Action α m n → Checked (ColumnMatrix α m n)
  | acquire _ => .ok c
  | update i j step => do return c.set i j (← step (c.get i j))
  | release _ => .ok c

def target : Action α m n → Option (Fin m × Fin n)
  | acquire _ => none
  | update i j _ => some (i, j)
  | release _ => none

/-- What an action computes from an entry, if it writes it. -/
def stepAt (i : Fin m) (j : Fin n) : Action α m n → Option (α → Checked α)
  | acquire _ => none
  | update i' j' step => if i' = i ∧ j' = j then some step else none
  | release _ => none

end Action

/-- The entries that are written. -/
def written (actions : List (Action α m n)) : List (Fin m × Fin n) := actions.filterMap Action.target

/-- The steps that are made at an entry, in order. -/
def stepsAt (actions : List (Action α m n)) (i : Fin m) (j : Fin n) : List (α → Checked α) :=
  actions.filterMap (Action.stepAt i j)

def runSteps (steps : List (α → Checked α)) (x : α) : Checked α :=
  steps.foldlM (fun x step => step x) x

/-- Every update is made while a lock is held. The first argument tells whether it is held at first. -/
def GuardedBy (lock : List Half) : Bool → List (Action α m n) → Prop
  | _, [] => True
  | held, .acquire l :: rest => GuardedBy lock (held || l = lock) rest
  | held, .update _ _ _ :: rest => held = true ∧ GuardedBy lock held rest
  | held, .release l :: rest => GuardedBy lock (held && l ≠ lock) rest

theorem stepsAt_append (xs ys : List (Action α m n)) (i : Fin m) (j : Fin n) :
    stepsAt (xs ++ ys) i j = stepsAt xs i j ++ stepsAt ys i j :=
  List.filterMap_append

theorem runSteps_append (xs ys : List (α → Checked α)) (x : α) :
    runSteps (xs ++ ys) x = runSteps xs x >>= runSteps ys :=
  List.foldlM_append

theorem stepsAt_eq_nil {actions : List (Action α m n)} {i : Fin m} {j : Fin n}
    (h : (i, j) ∉ written actions) : stepsAt actions i j = [] := by
  rw [stepsAt, List.filterMap_eq_nil_iff]
  intro action haction
  cases action with
  | acquire => rfl
  | update i' j' step =>
    have hne : ¬ (i' = i ∧ j' = j) := by
      rintro ⟨rfl, rfl⟩
      exact h (List.mem_filterMap.mpr ⟨_, haction, rfl⟩)
    exact if_neg hne
  | release => rfl

/-- An action goes one step ahead at its own entry, all others stay. -/
theorem entrywise_apply (action : Action α m n) (c : ColumnMatrix α m n) :
    Entrywise (action.apply c) fun i j => runSteps (stepsAt [action] i j) (c.get i j) := by
  cases action with
  | acquire => exact Entrywise.ok c
  | release => exact Entrywise.ok c
  | update i₀ j₀ step =>
    have hsteps : ∀ i j x, runSteps (stepsAt [.update i₀ j₀ step] i j) x =
        if i₀ = i ∧ j₀ = j then step x else .ok x := by
      intro i j x
      by_cases hij : i₀ = i ∧ j₀ = j
      · have hone : stepsAt [.update i₀ j₀ step] i j = [step] := by
          simp [stepsAt, Action.stepAt, hij]
        rw [hone, if_pos hij]
        exact bind_pure (step x)
      · have hnone : stepsAt [.update i₀ j₀ step] i j = [] := by
          simp [stepsAt, Action.stepAt, hij]
        rw [hnone, if_neg hij]
        rfl
    intro c'
    simp only [hsteps, Action.apply, Checked.bind_eq_ok, Checked.pure_eq_ok, Except.ok.injEq]
    constructor
    · rintro ⟨x, hx, rfl⟩ i j
      rw [get_set]
      by_cases hij : i₀ = i ∧ j₀ = j
      · obtain ⟨rfl, rfl⟩ := hij
        simpa using hx
      · rw [if_neg hij, if_neg hij]
    · intro h
      refine ⟨c'.get i₀ j₀, by simpa using h i₀ j₀, ext_get fun i j => ?_⟩
      rw [get_set]
      by_cases hij : i₀ = i ∧ j₀ = j
      · obtain ⟨rfl, rfl⟩ := hij
        simp
      · have hkept := h i j
        rw [if_neg hij] at hkept
        rw [if_neg hij]
        exact Except.ok.inj hkept

/-- Replayed actions compute each entry by the steps at it. -/
theorem entrywise_replay (actions : List (Action α m n)) (c : ColumnMatrix α m n) :
    Entrywise (actions.foldlM Action.apply c) fun i j =>
      runSteps (stepsAt actions i j) (c.get i j) := by
  induction actions generalizing c with
  | nil => exact Entrywise.ok c
  | cons action actions ih =>
    rw [List.foldlM_cons]
    refine ((entrywise_apply action c).bind (s := fun i j => runSteps (stepsAt actions i j))
      ih).congr fun i j => ?_
    rw [← runSteps_append, ← stepsAt_append, List.singleton_append]

end TensorMechanics.Product
