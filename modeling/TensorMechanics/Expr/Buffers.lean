import TensorMechanics.Expr.Evaluate

/-!
# Contractions in index words and buffers

The ranks of a contraction are checked in two places. `Contraction.checkRanks` answers with a shape
error while the program runs; `Contraction.rankAssertions` are for ranks that are known beforehand.
Both compute with index words, so a check may itself overflow.

`Contraction.valueInBuffers` is the evaluation in detail. The index of each operand is kept in a buffer
of the length of its rank. The free components are copied into the buffers once, the contracted ones
again for every term. A copy overwrites a range of positions of a buffer: the range has to lie in the
buffer, and the run that is copied has to be as long as the range. The terms are not counted: after each of
them the contracted index is advanced, and the last one is the index that has no successor.
-/

namespace TensorMechanics.Contraction

/-! ## Checks of ranks -/

/-- Checks the ranks of a contraction, computing with index words. -/
def checkRanks (r₁ r₂ n declared : Nat) : Checked (Except ShapeError Unit) :=
  if n = 0 then .ok (.error .noContractedAxes)
  else if r₁ < n ∨ r₂ < n then .ok (.error (.tooManyContractedAxes n r₁ r₂))
  else do
    let axes ← Word.add r₁ r₂
    let contracted ← Word.mul 2 n
    if axes = contracted then return .error .scalarResult
    let covered ← Word.add declared contracted
    if covered = axes then return .ok ()
    let expected ← Word.sub axes contracted
    return .error (.rankMismatch expected declared)

/-- What is asserted of the ranks of a contraction, in order, with the text of each assertion. -/
def rankAssertions (r₁ r₂ n r : Nat) : List (Checked Bool × String) :=
  [(.ok (decide (1 ≤ n)),
      "contraction must contract at least one axis, use an outer product instead"),
    (.ok (decide (n ≤ r₁ ∧ n ≤ r₂)), "cannot contract more axes than an operand has"),
    (do
      let axes ← Word.add r₁ r₂
      let contracted ← Word.mul 2 n
      return decide (contracted < axes),
      "contraction over all axes yields a scalar, use contract_full instead"),
    (do
      let contracted ← Word.mul 2 n
      let covered ← Word.add r contracted
      let axes ← Word.add r₁ r₂
      return decide (covered = axes), "contraction result rank must be R1 + R2 - 2N")]

/-! ## Ranges of a buffer -/

section Ranges

variable {s : Nat}

/-- The components before a position. -/
def sliceBefore (buffer : MultiIndex s) (stop : Nat) : Checked (List Nat) :=
  if stop ≤ s then .ok (buffer.components.take stop) else .error (.rangeOutOfBounds stop s)

/-- The components from a position on. -/
def sliceFrom (buffer : MultiIndex s) (start : Nat) : Checked (List Nat) :=
  if start ≤ s then .ok (buffer.components.drop start) else .error (.rangeStartOutOfBounds start s)

/-- Overwrites the components before a position. The range is cut out of the buffer before the run is
looked at. -/
def copyBefore (buffer : MultiIndex s) (stop : Nat) (source : Checked (List Nat)) :
    Checked (MultiIndex s) :=
  if hstop : stop ≤ s then
    match source with
    | .ok run =>
      if hrun : run.length = stop then
        .ok ⟨run ++ buffer.components.drop stop, by
          rw [List.length_append, List.length_drop, buffer.length_components]; omega⟩
      else .error (.runLength stop run.length)
    | .error fault => .error fault
  else .error (.rangeOutOfBounds stop s)

/-- Overwrites the components from a position on. -/
def copyFrom (buffer : MultiIndex s) (start : Nat) (source : Checked (List Nat)) :
    Checked (MultiIndex s) :=
  if hstart : start ≤ s then
    match source with
    | .ok run =>
      if hrun : run.length = s - start then
        .ok ⟨buffer.components.take start ++ run, by
          rw [List.length_append, List.length_take, buffer.length_components]; omega⟩
      else .error (.runLength (s - start) run.length)
    | .error fault => .error fault
  else .error (.rangeStartOutOfBounds start s)

end Ranges

/-! ## Evaluation -/

variable {α : Type} {r r₁ r₂ n : Nat}

/-- The buffers with the free components in place, of which the left operand has `free`. -/
def freeBuffers (free n : Nat) (ix : MultiIndex r) : Checked (MultiIndex r₁ × MultiIndex r₂) := do
  let left ← copyBefore (.zeros r₁) free (sliceBefore ix free)
  let right ← copyFrom (.zeros r₂) n (sliceFrom ix free)
  return (left, right)

/-- The buffers with the contracted components overwritten. -/
def placeContracted (free : Nat) (buffers : MultiIndex r₁ × MultiIndex r₂) (k : MultiIndex n) :
    Checked (MultiIndex r₁ × MultiIndex r₂) := do
  let left ← copyFrom buffers.1 free (.ok k.components)
  let right ← copyBefore buffers.2 n (.ok k.components)
  return (left, right)

/-- Adds the term of a contracted index to a sum, by way of the buffers. -/
def addTerm [Scalar α] (free : Nat) (left : MultiIndex r₁ → Checked α)
    (right : MultiIndex r₂ → Checked α) (state : α × (MultiIndex r₁ × MultiIndex r₂))
    (k : MultiIndex n) : Checked (α × (MultiIndex r₁ × MultiIndex r₂)) := do
  let buffers ← placeContracted free state.2 k
  let x ← left buffers.1
  let y ← right buffers.2
  let total ← Scalar.add state.1 (← Scalar.mul x y)
  return (total, buffers)

/-- The contraction of two functions of an index over `n` axes, at an index of the result, by way of
buffers for the indices of both operands. -/
def valueInBuffers [Scalar α] (d n : Nat) (left : MultiIndex r₁ → Checked α)
    (right : MultiIndex r₂ → Checked α) (ix : MultiIndex r) : Checked α := do
  let free ← Word.sub r₁ n
  let buffers ← freeBuffers free n ix
  let (total, _) ← Walk.foldToLast d (addTerm free left right) (.zeros n) (Scalar.zero, buffers)
  return total

end TensorMechanics.Contraction
