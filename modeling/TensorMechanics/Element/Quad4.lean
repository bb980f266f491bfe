import TensorMechanics.Element.Kinematics

/-!
# The bilinear quadrilateral

The element with four nodes on the reference square from `-1` to `1` in both directions. Its nodes
run counterclockwise from the corner `(-1, -1)`, and node `a` has the basis function
`(1 + v_0 ξ_0) (1 + v_1 ξ_1) / 4` with `v` the corner. The quadrature rule has one point near each
corner, all of weight one.
-/

namespace TensorMechanics.Element.Quad4

open RealScalar

variable {α : Type} [RealScalar α]

/-- A coordinate of a corner of the reference square. -/
def vertex (a : Fin 4) (c : Fin 2) : α :=
  match a, c with
  | 0, _ => -1
  | 1, 0 => 1
  | 1, _ => -1
  | 2, _ => 1
  | 3, 0 => -1
  | 3, _ => 1

/-- The corners of the reference square. -/
def vertices : List (Tensor α 2 1) := (List.finRange 4).map fun a => .ofFn₁ (vertex a)

/-- The value of a basis function at a reference point. -/
def basis (a : Fin 4) (xi : Tensor α 2 1) : α :=
  (1 + vertex a 0 * xi.get₁ 0) * (1 + vertex a 1 * xi.get₁ 1) / natural α 4

/-- The gradient of a basis function at a reference point. -/
def gradient (a : Fin 4) (xi : Tensor α 2 1) : Tensor α 2 1 :=
  .ofFn₁ fun c => vertex a c * (1 + vertex a (1 - c) * xi.get₁ (1 - c)) / natural α 4

/-- The gradients of all basis functions. -/
def gradients (xi : Tensor α 2 1) : List (Tensor α 2 1) :=
  (List.finRange 4).map fun a => gradient a xi

/-- The quadrature point near a corner. -/
def gaussPoint (a : Fin 4) : Tensor α 2 1 :=
  .ofFn₁ fun c => 1 / sqrt (natural α 3) * vertex a c

/-- The weights and points of the quadrature rule. -/
def gaussRule : List (α × Tensor α 2 1) := (List.finRange 4).map fun a => (1, gaussPoint a)

/-- The kinematics at all quadrature points of an element with the given corners. -/
def kinematics (corners : Vector (Tensor α 2 1) 4) :
    Logged (Notice α) (Error α) (List (Kinematics α 2)) :=
  Logged.traverse (fun (weight, xi) => Kinematics.atPoint corners.toList (gradients xi) weight)
    gaussRule

end TensorMechanics.Element.Quad4
