import TensorMechanics.LinearAlgebra.Inverse
import TensorMechanics.Logged
import TensorMechanics.Tensor.Update

/-!
# Kinematics of an element

At a quadrature point, the map from the reference element to the physical one has the Jacobian
`J = ∑ x_A ⊗ g_A`, summed over the nodes with positions `x_A` and reference gradients `g_A`. A
nonsingular Jacobian carries the reference gradients to physical ones, `J⁻ᵀ g_A`, and its
determinant scales the weight of the point.

A negative determinant means that the element is turned inside out. That is reported and accepted; a
singular Jacobian is an error.
-/

namespace TensorMechanics.Element

variable {α : Type} {d : Nat}

/-- An event worth a warning. -/
inductive Notice (α : Type) where
  /-- The Jacobian has a negative determinant. -/
  | inverted (determinant : α)

/-- The line of a notice. The text of a number is given. -/
def Notice.line (render : α → String) : Notice α → String
  | .inverted determinant =>
    Level.warning.line s!"Inverted element: negative Jacobian determinant {render determinant}."

/-- Why an element has no kinematics. -/
inductive Error (α : Type) where
  /-- The Jacobian has no inverse. -/
  | singular (determinant : α)
  /-- The computation stopped. -/
  | stopped (fault : Fault)

/-- The sentence reported for an error. The text of a number is given. -/
def Error.message (render : α → String) : Error α → String
  | .singular determinant => s!"Element Jacobian is singular (determinant {render determinant})."
  | .stopped fault => fault.message

/-- The geometry of an element at one quadrature point. -/
structure Kinematics (α : Type) (d : Nat) where
  /-- The Jacobian of the map from the reference element. -/
  jacobian : Tensor α d 2
  /-- Its determinant. -/
  determinant : α
  /-- The weight of the point times the absolute value of the determinant. -/
  jxw : α
  /-- The physical gradients, one for each node. -/
  gradients : List (Tensor α d 1)

variable [RealScalar α]

/-- A checked computation as a step of the kinematics. -/
def ofChecked {β : Type} (x : Checked β) : Logged (Notice α) (Error α) β :=
  .ofResult (x.mapError .stopped)

/-- Adds the outer product of two vectors to a matrix. -/
def addOuter (m : Tensor α d 2) (x g : Tensor α d 1) : Checked (Tensor α d 2) :=
  match m.addAssign (Expr.outer dyadRank (.tensor x) (.tensor g)).evaluate with
  | (.ok _, m) => .ok m
  | (.error fault, _) => .error fault

/-- The Jacobian: the sum of the outer products of positions and reference gradients. -/
def nodalJacobian (nodes gradients : List (Tensor α d 1)) : Checked (Tensor α d 2) :=
  (nodes.zip gradients).foldlM (fun m (x, g) => addOuter m x g) (.zeros α d 2)

/-- The ranks of the product of a matrix and a vector. -/
theorem matrixVectorShape : ContractionShape 2 1 1 1 := by constructor <;> decide

/-- The product of a matrix and a vector. -/
def matrixVector (m : Tensor α d 2) (v : Tensor α d 1) : Checked (Tensor α d 1) :=
  (Expr.contraction 1 matrixVectorShape (.tensor m) (.tensor v)).eval

/-- The kinematics at a quadrature point with a given weight. There must be one reference gradient
for each node. -/
def Kinematics.atPoint (nodes gradients : List (Tensor α d 1)) (weight : α) :
    Logged (Notice α) (Error α) (Kinematics α d) := do
  if nodes.length ≠ gradients.length then
    .fail (.stopped (.gradientCount nodes.length gradients.length))
  else
    let jacobian ← ofChecked (nodalJacobian nodes gradients)
    let determinant := LinearAlgebra.determinant jacobian
    match LinearAlgebra.inverse? jacobian with
    | none => .fail (.singular determinant)
    | some inverse =>
      if RealScalar.below determinant 0 then .report (.inverted determinant)
      let physical ← ofChecked (gradients.mapM (matrixVector (LinearAlgebra.transpose inverse)))
      return ⟨jacobian, determinant, RealScalar.abs determinant * weight, physical⟩

end TensorMechanics.Element
