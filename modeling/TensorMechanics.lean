import TensorMechanics.Elasticity.Stiffness
import TensorMechanics.Element.Quad4
import TensorMechanics.Expr.Buffers
import TensorMechanics.Json.Values
import TensorMechanics.MultiIndex.Parts
import TensorMechanics.Proofs.Checked
import TensorMechanics.Proofs.ColumnMatrix
import TensorMechanics.Proofs.Elasticity.Assembly
import TensorMechanics.Proofs.Elasticity.Energy
import TensorMechanics.Proofs.Elasticity.FrameIndifference
import TensorMechanics.Proofs.Elasticity.Patch
import TensorMechanics.Proofs.Elasticity.Stability
import TensorMechanics.Proofs.Elasticity.Stiffness
import TensorMechanics.Proofs.Elasticity.Strain
import TensorMechanics.Proofs.Elasticity.Stress
import TensorMechanics.Proofs.Elasticity.YoungPoisson
import TensorMechanics.Proofs.Element.Area
import TensorMechanics.Proofs.Element.Interpolation
import TensorMechanics.Proofs.Element.Kinematics
import TensorMechanics.Proofs.Element.Outcome
import TensorMechanics.Proofs.Expr.Agreement
import TensorMechanics.Proofs.Expr.Associativity
import TensorMechanics.Proofs.Expr.Bilinearity
import TensorMechanics.Proofs.Expr.Evaluation
import TensorMechanics.Proofs.Expr.Exact
import TensorMechanics.Proofs.Expr.Formula
import TensorMechanics.Proofs.Expr.FullContraction
import TensorMechanics.Proofs.Expr.IndexSafety
import TensorMechanics.Proofs.Expr.Magnitude
import TensorMechanics.Proofs.Expr.Materialization
import TensorMechanics.Proofs.Expr.Matricization
import TensorMechanics.Proofs.Expr.OuterProduct
import TensorMechanics.Proofs.Expr.ShapeCheck
import TensorMechanics.Proofs.Json.Integer
import TensorMechanics.Proofs.LinearAlgebra.CrossProduct
import TensorMechanics.Proofs.LinearAlgebra.Identity
import TensorMechanics.Proofs.LinearAlgebra.Inverse
import TensorMechanics.Proofs.LinearAlgebra.Product
import TensorMechanics.Proofs.LinearAlgebra.Storage
import TensorMechanics.Proofs.MultiIndex.Copies
import TensorMechanics.Proofs.MultiIndex.Enumeration
import TensorMechanics.Proofs.MultiIndex.Offset
import TensorMechanics.Proofs.MultiIndex.Order
import TensorMechanics.Proofs.MultiIndex.Overflow
import TensorMechanics.Proofs.MultiIndex.Parts
import TensorMechanics.Proofs.MultiIndex.Walk
import TensorMechanics.Proofs.Product.Actions
import TensorMechanics.Proofs.Product.Calls
import TensorMechanics.Proofs.Product.Entries
import TensorMechanics.Proofs.Product.Entrywise
import TensorMechanics.Proofs.Product.Exact
import TensorMechanics.Proofs.Product.Forks
import TensorMechanics.Proofs.Product.Magnitude
import TensorMechanics.Proofs.Product.Parallelism
import TensorMechanics.Proofs.Product.Plan
import TensorMechanics.Proofs.Product.Schedule
import TensorMechanics.Proofs.Product.Sequential
import TensorMechanics.Proofs.Product.Tiling
import TensorMechanics.Proofs.Scalar.Exact
import TensorMechanics.Proofs.Tensor.Access
import TensorMechanics.Proofs.Tensor.Components
import TensorMechanics.Proofs.Tensor.Text
import TensorMechanics.Proofs.Tensor.Update
import TensorMechanics.Proofs.Tensor.Views
import TensorMechanics.Proofs.Text.Bracketed
