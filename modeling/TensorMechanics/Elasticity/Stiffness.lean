import TensorMechanics.Elasticity
import TensorMechanics.Element.Kinematics

/-!
# Stiffness of an element

The stiffness matrix couples the displacements of the nodes of an element. Row `A d + i` belongs to
component `i` at node `A`. The block of two nodes `A` and `B` sums, over the quadrature points, the
weight of the point times the contraction of `C_ikjl` with the outer product of both gradients.
-/

namespace TensorMechanics.Elasticity

open Grid

variable {α : Type} [RealScalar α] {d : Nat}

/-- The elasticity tensor with its second and third axes exchanged. -/
def LameParameters.exchanged (p : LameParameters α) (d : Nat) : Tensor α d 4 :=
  .ofFn₄ fun i k j l => (p.tensor d).get₄ i j k l

/-- The block of two nodes at a quadrature point, before it is weighted. -/
def couplingBlock (exchanged : Tensor α d 4) (gradA gradB : Tensor α d 1) : Checked (Tensor α d 2) :=
  contractTwice exchanged (.outer dyadRank (.tensor gradA) (.tensor gradB))

/-- Adds a weighted block to the rows of node `a` and the columns of node `b`. -/
def addBlock {n : Nat} (stiffness : ColumnMatrix α (n * d) (n * d)) (a b : Fin n) (weight : α)
    (block : Tensor α d 2) : ColumnMatrix α (n * d) (n * d) :=
  (List.finRange d).foldl (fun k i =>
    (List.finRange d).foldl (fun (k : ColumnMatrix α (n * d) (n * d)) j =>
      let row := position a i
      let column := position b j
      k.set row column (k.get row column + weight * block.get₂ i j)) k) stiffness

/-- Adds the blocks of all pairs of nodes at a quadrature point with one gradient for each node. -/
def addPoint {n : Nat} (exchanged : Tensor α d 4) (weight : α) (gradients : Vector (Tensor α d 1) n)
    (stiffness : ColumnMatrix α (n * d) (n * d)) : Checked (ColumnMatrix α (n * d) (n * d)) :=
  (List.finRange n).foldlM (fun k a =>
    (List.finRange n).foldlM (fun k b => do
      let block ← couplingBlock exchanged gradients[a] gradients[b]
      return addBlock k a b weight block) k) stiffness

/-- The gradients of a quadrature point, which must be as many as the element has nodes. -/
def gradientsFor (n : Nat) (point : Element.Kinematics α d) : Checked (Vector (Tensor α d 1) n) :=
  if h : point.gradients.length = n then .ok ⟨point.gradients.toArray, by simpa using h⟩
  else .error (.nodeCount point.gradients.length n)

/-- The stiffness matrix of an element with `n` nodes from its quadrature points. -/
def assemble (p : LameParameters α) (n : Nat) (points : List (Element.Kinematics α d)) :
    Checked (ColumnMatrix α (n * d) (n * d)) :=
  let exchanged := p.exchanged d
  points.foldlM (fun k point => do
    let gradients ← gradientsFor n point
    addPoint exchanged point.jxw gradients k) (.replicate (n * d) (n * d) 0)

/-- The number of nodes of an element: that of its first quadrature point, zero without points. -/
def nodeCount (points : List (Element.Kinematics α d)) : Nat :=
  match points with
  | [] => 0
  | point :: _ => point.gradients.length

/-- The stiffness matrix of an element from its quadrature points. -/
def stiffness (p : LameParameters α) (points : List (Element.Kinematics α d)) :
    Checked (ColumnMatrix α (nodeCount points * d) (nodeCount points * d)) :=
  assemble p (nodeCount points) points

end TensorMechanics.Elasticity
