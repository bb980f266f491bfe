import TensorMechanics.MultiIndex

/-!
# The parts of an index, by position

`MultiIndex.split` cuts a list of components in two and `MultiIndex.join` appends two lists. Here the same is
done component by component: a part gathers the components at a sequence of positions, and a joined index
reads the left part before position `r₁` and the right one from there on. Positions are computed with index
words, and a position that is read has to lie in the index.
-/

namespace TensorMechanics.MultiIndex

variable {r r₁ r₂ n : Nat}

/-- The component at a position. -/
def componentAt (ix : MultiIndex r) (k : Nat) : Checked Nat :=
  if h : k < r then .ok (ix.component ⟨k, h⟩) else .error (.positionOutOfRange r k)

/-- The index whose components are computed one after the other. -/
def ofFnM (f : Fin n → Checked Nat) : Checked (MultiIndex n) := do
  let components ← Vector.ofFnM f
  return ⟨components.toList, components.length_toList⟩

/-- The components at a sequence of positions. -/
def gather (ix : MultiIndex r) (places : MultiIndex n) : Checked (MultiIndex n) :=
  ofFnM fun a => ix.componentAt (places.component a)

/-- The first `r₁` and the following `r₂` components. -/
def splitByPositions (r₁ r₂ : Nat) (ix : MultiIndex r) :
    Checked (MultiIndex r₁ × MultiIndex r₂) := do
  let rightPlaces ← positionsFrom r₁ r₂
  let left ← ix.gather (positions r₁)
  let right ← ix.gather rightPlaces
  return (left, right)

/-- The index of rank `r` that has the components of the left index, then those of the right one. -/
def joinByPositions (r : Nat) (left : MultiIndex r₁) (right : MultiIndex r₂) :
    Checked (MultiIndex r) :=
  ofFnM fun k : Fin r =>
    if k < r₁ then left.componentAt k
    else do
      let shifted ← Word.sub k r₁
      right.componentAt shifted

end TensorMechanics.MultiIndex
