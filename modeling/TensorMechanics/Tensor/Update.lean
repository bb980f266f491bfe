import TensorMechanics.Tensor

/-!
# Updates in place

An update replaces the entries of a tensor one after the other, in storage order. The new value of
an entry may depend on its old value and on its index, and computing it may fault. Then the update
stops: the entries before it are new, this one and all behind it are old. So an update answers both
an outcome and the tensor that is left.
-/

namespace TensorMechanics.Tensor

variable {α : Type} {d r : Nat}

/-- Updates values in order until one faults. The function sees the position of the value, counted
from `p` on. -/
def updateFrom (f : Nat → α → Checked α) : Nat → List α → Checked Unit × List α
  | _, [] => (.ok (), [])
  | p, x :: xs =>
    match f p x with
    | .ok y =>
      let rest := updateFrom f (p + 1) xs
      (rest.1, y :: rest.2)
    | .error fault => (.error fault, x :: xs)

theorem length_updateFrom (f : Nat → α → Checked α) (p : Nat) (xs : List α) :
    (updateFrom f p xs).2.length = xs.length := by
  induction xs generalizing p with
  | nil => rfl
  | cons x xs ih =>
    unfold updateFrom
    split
    · simp [ih]
    · rfl

/-- Updates every entry by a function of its position and its old value. -/
def updateEach (f : Nat → α → Checked α) (t : Tensor α d r) : Checked Unit × Tensor α d r :=
  ((updateFrom f 0 t.toList).1,
   ofLength (updateFrom f 0 t.toList).2 ((length_updateFrom f 0 t.toList).trans t.length_toList))

/-- Updates values in order, in step with a walk, until one faults or the walk ends. -/
def updateAlong (f : MultiIndex r → α → Checked α) : Walk d r → List α → Checked Unit × List α
  | _, [] => (.ok (), [])
  | w, x :: xs =>
    match w.step with
    | (.ok (some ix), w) =>
      match f ix x with
      | .ok y =>
        let rest := updateAlong f w xs
        (rest.1, y :: rest.2)
      | .error fault => (.error fault, x :: xs)
    | (.ok none, _) => (.ok (), x :: xs)
    | (.error fault, _) => (.error fault, x :: xs)

theorem length_updateAlong (f : MultiIndex r → α → Checked α) (w : Walk d r) (xs : List α) :
    (updateAlong f w xs).2.length = xs.length := by
  induction xs generalizing w with
  | nil => rfl
  | cons x xs ih =>
    unfold updateAlong
    split
    · split
      · simp [ih]
      · rfl
    · rfl
    · rfl

/-- Updates every entry by a function of its index and its old value. -/
def updateIndexed (f : MultiIndex r → α → Checked α) (t : Tensor α d r) :
    Checked Unit × Tensor α d r :=
  match Walk.start d r with
  | .ok w =>
    ((updateAlong f w t.toList).1,
     ofLength (updateAlong f w t.toList).2
       ((length_updateAlong f w t.toList).trans t.length_toList))
  | .error fault => (.error fault, t)

/-- Multiplies every entry by a number. -/
def mulAssign [Scalar α] (t : Tensor α d r) (alpha : α) : Checked Unit × Tensor α d r :=
  t.updateEach fun _ x => Scalar.mul x alpha

/-- Overwrites every entry by the value at its index. -/
def assign (t : Tensor α d r) (value : MultiIndex r → Checked α) : Checked Unit × Tensor α d r :=
  t.updateIndexed fun ix _ => value ix

/-- Adds to every entry the value at its index. -/
def addAssign [Scalar α] (t : Tensor α d r) (value : MultiIndex r → Checked α) :
    Checked Unit × Tensor α d r :=
  t.updateIndexed fun ix x => do Scalar.add x (← value ix)

/-- Subtracts from every entry the value at its index. -/
def subAssign [Scalar α] (t : Tensor α d r) (value : MultiIndex r → Checked α) :
    Checked Unit × Tensor α d r :=
  t.updateIndexed fun ix x => do Scalar.sub x (← value ix)

end TensorMechanics.Tensor
