import TensorMechanics.Tensor

/-!
# Tensors as text

A tensor is written as nested lists: a tensor of rank zero is its entry, any other is the list of
its slices along the first axis. The slices are found by cutting the entries into pieces of equal
length, which faults if the dimension is zero or a piece would be empty.
-/

namespace TensorMechanics.Tensor

variable {α : Type} {d r : Nat}

/-- Cuts a list into pieces of length `n`, at most `fuel` many. The last piece may be shorter. -/
def pieces (n : Nat) : (fuel : Nat) → List α → List (List α)
  | 0, _ => []
  | _, [] => []
  | fuel + 1, x :: xs => (x :: xs).take n :: pieces n fuel ((x :: xs).drop n)

/-- The nested list of the entries, for a given dimension and rank. -/
def nested (render : α → String) (d : Nat) : (r : Nat) → List α → Checked String
  | 0, xs =>
    match xs with
    | x :: _ => .ok (render x)
    | [] => .error (.positionOutOfRange 0 0)
  | r + 1, xs => do
    let n ← Word.div xs.length d
    if n = 0 then throw .emptyPieces
    let items ← (pieces n xs.length xs).mapM (nested render d r)
    return bracketed items

/-- The nested list of the entries of a tensor. -/
def text (render : α → String) (t : Tensor α d r) : Checked String := nested render d r t.toList

end TensorMechanics.Tensor
