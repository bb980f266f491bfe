import Mathlib
import TensorMechanics.Element.Kinematics
import TensorMechanics.Proofs.Expr.Exact
import TensorMechanics.Proofs.LinearAlgebra.Inverse
import TensorMechanics.Proofs.Logged
import TensorMechanics.Proofs.Tensor.Components
import TensorMechanics.Proofs.Tensor.Update

/-!
# Proofs: kinematics of an element

Over an exact field the Jacobian is the sum `J_ij = ∑ x_A,i g_A,j` over the nodes, and the physical
gradients are `J⁻ᵀ g_A`. So the nodes and the physical gradients are dual to each other: the sum of
`x_A,k ∂_l N_A` over the nodes is `δ_kl`. Reference gradients that sum to zero have physical gradients
that do.
-/

namespace TensorMechanics

theorem Tensor.get₂_zeros {α : Type} [Scalar α] {d : Nat} (i j : Fin d) :
    (zeros α d 2).get₂ i j = Scalar.zero := by
  simp only [zeros, replicate, get₂, Fin.getElem_fin, Vector.getElem_replicate]

namespace Element

open Tensor TensorMechanics.LinearAlgebra

variable {α : Type} {d n : Nat}

/-! ## Lists of vectors -/

/-- A component of the vector of a node. A node without a vector has zero. -/
def component [Zero α] (vs : List (Tensor α d 1)) (a : Nat) (j : Fin d) : α :=
  (vs[a]?.map fun v => v.get₁ j).getD 0

theorem component_eq [Zero α] {vs : List (Tensor α d 1)} {a : Nat} (ha : a < vs.length) (j : Fin d) :
    component vs a j = vs[a].get₁ j := by
  rw [component, List.getElem?_eq_getElem ha]
  rfl

/-- Summing over a list is summing over its positions. -/
theorem sum_map_eq_sum_fin {β M : Type} [AddCommMonoid M] {xs : List β} (hn : xs.length = n)
    {f : β → M} {g : Nat → M} (hg : ∀ a (ha : a < xs.length), f xs[a] = g a) :
    (xs.map f).sum = ∑ a : Fin n, g a := by
  subst hn
  rw [← Fin.sum_univ_fun_getElem]
  exact Finset.sum_congr rfl fun a _ => hg a a.isLt

section Ring

variable [ExactRing α] {nodes gradients : List (Tensor α d 1)}

theorem sum_get₁ (hn : gradients.length = n) (j : Fin d) :
    (gradients.map fun g => g.get₁ j).sum = ∑ a : Fin n, component gradients a j :=
  sum_map_eq_sum_fin (g := fun a => component gradients a j) hn fun _ ha => (component_eq ha j).symm

theorem sum_zip_get₁ (hx : nodes.length = n) (hg : gradients.length = n) (i j : Fin d) :
    ((nodes.zip gradients).map fun x => x.1.get₁ i * x.2.get₁ j).sum =
      ∑ a : Fin n, component nodes a i * component gradients a j := by
  have hlen : (nodes.zip gradients).length = n := by rw [List.length_zip, hx, hg, Nat.min_self]
  refine sum_map_eq_sum_fin (g := fun a => component nodes a i * component gradients a j) hlen ?_
  intro a ha
  have hax : a < nodes.length := hx.symm ▸ hlen ▸ ha
  have hag : a < gradients.length := hg.symm ▸ hlen ▸ ha
  simp only [component_eq hax, component_eq hag, List.getElem_zip]

/-! ## The steps of the kinematics -/

theorem addOuter_eq (m : Tensor α d 2) (x g : Tensor α d 1) (hd : d ^ 2 < Word.limit) :
    addOuter m x g = .ok (.ofFn₂ fun i j => m.get₂ i j + x.get₁ i * g.get₁ j) := by
  have hvector : d ^ 1 < Word.limit := MultiIndex.pow_lt_limit hd (by decide)
  let sum : Expr α d 2 := .sum (.tensor m) (.outer dyadRank (.tensor x) (.tensor g))
  have haddressable : sum.Addressable := ⟨hd, hvector, hvector⟩
  have heval : sum.eval = .ok (.ofFn₂ fun i j => m.get₂ i j + x.get₁ i * g.get₁ j) := by
    have hentry : ∀ i j, sum.formula id (.ofComponents ![i, j]) =
        m.get₂ i j + x.get₁ i * g.get₁ j := fun i j =>
      congrArg₂ (· + ·) (entryAt_ofComponents₂ id m i j) (Expr.formula_dyad id x g i j)
    rw [Expr.eval_eq_ofFn haddressable hd, ofFn_eq_ofFn₂]
    simp only [hentry]
  have hrun := Assignment.run_of_eval (.add (.outer dyadRank (.tensor x) (.tensor g))) heval
  rw [Assignment.run] at hrun
  rw [addOuter, hrun]

theorem foldlM_addOuter (hd : d ^ 2 < Word.limit) (pairs : List (Tensor α d 1 × Tensor α d 1))
    (m : Tensor α d 2) :
    pairs.foldlM (fun m (x, g) => addOuter m x g) m =
      .ok (.ofFn₂ fun i j => m.get₂ i j + (pairs.map fun x => x.1.get₁ i * x.2.get₁ j).sum) := by
  induction pairs generalizing m with
  | nil => simp [ofFn₂_get₂]
  | cons pair pairs ih =>
    obtain ⟨x, g⟩ := pair
    rw [List.foldlM_cons]
    dsimp only
    rw [addOuter_eq m x g hd, Checked.ok_bind, ih]
    simp only [get₂_ofFn₂, List.map_cons, List.sum_cons, add_assoc]

/-- The Jacobian sums the products of the components of positions and reference gradients. -/
theorem nodalJacobian_eq (hd : d ^ 2 < Word.limit) (hx : nodes.length = n)
    (hg : gradients.length = n) :
    nodalJacobian nodes gradients =
      .ok (.ofFn₂ fun i j => ∑ a : Fin n, component nodes a i * component gradients a j) := by
  have hzero : ∀ i j, (Tensor.zeros α d 2).get₂ i j = 0 := get₂_zeros
  rw [nodalJacobian, foldlM_addOuter hd]
  simp only [hzero, zero_add, sum_zip_get₁ hx hg]

theorem matrixVector_eq (m : Tensor α d 2) (v : Tensor α d 1) (hd : d ^ 2 < Word.limit) :
    matrixVector m v = .ok (.ofFn₁ fun i => ∑ j, m.get₂ i j * v.get₁ j) := by
  have hvector : d ^ 1 < Word.limit := MultiIndex.pow_lt_limit hd (by decide)
  have haddressable : (Expr.contraction 1 matrixVectorShape (.tensor m) (.tensor v)).Addressable :=
    ⟨hd, hvector⟩
  rw [matrixVector, Expr.eval_eq_ofFn haddressable hvector, ofFn_eq_ofFn₁]
  congr 2
  funext i
  rw [Expr.formula, sum_components₁]
  refine Finset.sum_congr rfl fun j _ => ?_
  have hleft : matrixVectorShape.leftIndex (.ofComponents ![i]) (.ofComponents ![j]) =
      .ofComponents ![i, j] := by
    apply MultiIndex.ext
    simp [ContractionShape.leftIndex, MultiIndex.ofComponents]
  have hright : matrixVectorShape.rightIndex (.ofComponents ![i]) (.ofComponents ![j]) =
      .ofComponents ![j] := by
    apply MultiIndex.ext
    simp [ContractionShape.rightIndex, MultiIndex.ofComponents]
  rw [hleft, hright, Expr.formula, Expr.formula, entryAt_ofComponents₂, entryAt_ofComponents₁, id, id]

/-- The gradient `J⁻ᵀ g` of a reference gradient `g`, from the inverse of the Jacobian. -/
def physicalGradient (inverse : Tensor α d 2) (g : Tensor α d 1) : Tensor α d 1 :=
  .ofFn₁ fun l => ∑ j, inverse.get₂ j l * g.get₁ j

theorem mapM_matrixVector (hd : d ^ 2 < Word.limit) (inverse : Tensor α d 2) :
    gradients.mapM (matrixVector (transpose inverse)) =
      .ok (gradients.map (physicalGradient inverse)) := by
  refine Checked.mapM_eq_ok.mpr ?_
  rw [List.map_map]
  refine List.map_congr_left fun g _ => ?_
  simp only [matrixVector_eq _ _ hd, transpose, get₂_ofFn₂, Function.comp_apply, physicalGradient]

theorem component_physicalGradient (hn : gradients.length = n) (inverse : Tensor α d 2) (a : Fin n)
    (l : Fin d) :
    component (gradients.map (physicalGradient inverse)) a l =
      ∑ j, inverse.get₂ j l * component gradients a j := by
  have ha : a.val < gradients.length := hn.symm ▸ a.isLt
  have hmap : a.val < (gradients.map (physicalGradient inverse)).length := by rwa [List.length_map]
  rw [component_eq hmap, List.getElem_map, physicalGradient, get₁_ofFn₁]
  simp only [component_eq ha]

end Ring

/-! ## Kinematics at a point -/

theorem result_ofChecked_eq_ok {β : Type} {x : Checked β} {y : β} :
    (ofChecked x : Logged (Notice α) (Error α) β).result = .ok y ↔ x = .ok y := by
  cases x with
  | ok a => exact ⟨fun h => congrArg _ (Except.ok.inj h), fun h => congrArg _ (Except.ok.inj h)⟩
  | error fault =>
    constructor
    · intro h
      cases h
    · intro h
      cases h

/-- A step that may fault and then another computation succeed exactly if the step answers and the
computation succeeds on its answer. -/
theorem result_ofChecked_bind_eq_ok {β γ : Type} {x : Checked β}
    {f : β → Logged (Notice α) (Error α) γ} {y : γ} :
    (ofChecked x >>= f).result = .ok y ↔ ∃ a, x = .ok a ∧ (f a).result = .ok y := by
  simp only [Logged.result_bind_eq_ok, result_ofChecked_eq_ok]

/-- The kinematics exist exactly if there is one reference gradient for each node, the Jacobian has an
inverse, and nothing on the way faults. -/
theorem Kinematics.result_atPoint_eq_ok [RealScalar α] {nodes gradients : List (Tensor α d 1)} {weight : α}
    {q : Kinematics α d} :
    (atPoint nodes gradients weight).result = .ok q ↔
      nodes.length = gradients.length ∧ ∃ jacobian, nodalJacobian nodes gradients = .ok jacobian ∧
        ∃ inverse, inverse? jacobian = some inverse ∧
          ∃ physical, gradients.mapM (matrixVector (transpose inverse)) = .ok physical ∧
            ⟨jacobian, LinearAlgebra.determinant jacobian,
              RealScalar.abs (LinearAlgebra.determinant jacobian) * weight, physical⟩ = q := by
  rw [atPoint]
  by_cases hlen : nodes.length = gradients.length
  · rw [if_neg (not_not.mpr hlen), result_ofChecked_bind_eq_ok]
    simp only [hlen, true_and]
    refine exists_congr fun jacobian => and_congr_right fun _ => ?_
    cases inverse? jacobian with
    | none => simp [Logged.fail]
    | some inverse =>
      have hpure : ∀ q' : Kinematics α d,
          (pure q' : Logged (Notice α) (Error α) (Kinematics α d)).result = .ok q ↔ q' = q :=
        fun _ => ⟨fun h => Except.ok.inj h, fun h => congrArg Except.ok h⟩
      rw [Logged.result_ite_report, result_ofChecked_bind_eq_ok]
      simp only [hpure, Option.some.injEq, exists_eq_left']
  · rw [if_pos hlen]
    simp [Logged.fail, hlen]

/-- Tensors of low rank have an addressable number of entries up to dimension three. -/
theorem pow_four_lt_limit (hd : 1 ≤ d ∧ d ≤ 3) : d ^ 4 < Word.limit := by
  obtain ⟨hpos, hle⟩ := hd
  interval_cases d <;> decide

namespace Kinematics

variable [ExactField α] {nodes gradients : List (Tensor α d 1)} {weight : α} {q : Kinematics α d}

/-- What the kinematics at a point consist of. -/
theorem exists_inverse (hd : 1 ≤ d ∧ d ≤ 3) (hn : nodes.length = n)
    (h : (atPoint nodes gradients weight).result = .ok q) :
    gradients.length = n ∧
      q.jacobian = .ofFn₂ (fun i j => ∑ a : Fin n, component nodes a i * component gradients a j) ∧
      ∃ inverse : Tensor α d 2, q.jacobian.toMatrix * inverse.toMatrix = 1 ∧
        q.gradients = gradients.map (physicalGradient inverse) := by
  have hlimit : d ^ 2 < Word.limit := MultiIndex.pow_lt_limit (pow_four_lt_limit hd) (by decide)
  obtain ⟨hlen, jacobian, hjacobian, inverse, hinverse, physical, hphysical, rfl⟩ :=
    result_atPoint_eq_ok.mp h
  have hg : gradients.length = n := hlen.symm.trans hn
  refine ⟨hg, ?_, inverse, toMatrix_mul_inverse hd hinverse, ?_⟩
  · exact Except.ok.inj (hjacobian.symm.trans (nodalJacobian_eq hlimit hn hg))
  · exact Except.ok.inj (hphysical.symm.trans (mapM_matrixVector hlimit inverse))

theorem length_gradients (hd : 1 ≤ d ∧ d ≤ 3) (hn : nodes.length = n)
    (h : (atPoint nodes gradients weight).result = .ok q) : q.gradients.length = n := by
  obtain ⟨hg, -, inverse, -, hgradients⟩ := exists_inverse hd hn h
  rw [hgradients, List.length_map, hg]

/-- The nodes and the physical gradients are dual to each other. -/
theorem sum_nodes_mul_gradients (hd : 1 ≤ d ∧ d ≤ 3) (hn : nodes.length = n)
    (h : (atPoint nodes gradients weight).result = .ok q) (k l : Fin d) :
    ∑ a : Fin n, component nodes a k * component q.gradients a l = if k = l then 1 else 0 := by
  obtain ⟨hg, hjacobian, inverse, hinverse, hgradients⟩ := exists_inverse hd hn h
  have hproduct : ∑ j, q.jacobian.get₂ k j * inverse.get₂ j l = if k = l then 1 else 0 := by
    rw [← Matrix.one_apply, ← hinverse, Matrix.mul_apply]
    rfl
  calc ∑ a : Fin n, component nodes a k * component q.gradients a l
      = ∑ a : Fin n, ∑ j, component nodes a k * component gradients a j * inverse.get₂ j l := by
        refine Finset.sum_congr rfl fun a _ => ?_
        rw [hgradients, component_physicalGradient hg, Finset.mul_sum]
        refine Finset.sum_congr rfl fun j _ => ?_
        ring
    _ = ∑ j, q.jacobian.get₂ k j * inverse.get₂ j l := by
        rw [Finset.sum_comm]
        simp only [hjacobian, get₂_ofFn₂, Finset.sum_mul]
    _ = if k = l then 1 else 0 := hproduct

/-- Reference gradients that sum to zero have physical gradients that do. -/
theorem sum_gradients (hd : 1 ≤ d ∧ d ≤ 3) (hn : nodes.length = n)
    (h : (atPoint nodes gradients weight).result = .ok q)
    (hsum : ∀ j, (gradients.map fun g => g.get₁ j).sum = 0) (l : Fin d) :
    ∑ a : Fin n, component q.gradients a l = 0 := by
  obtain ⟨hg, -, inverse, -, hgradients⟩ := exists_inverse hd hn h
  calc ∑ a : Fin n, component q.gradients a l
      = ∑ a : Fin n, ∑ j, inverse.get₂ j l * component gradients a j := by
        simp only [hgradients, component_physicalGradient hg]
    _ = ∑ j, inverse.get₂ j l * ∑ a : Fin n, component gradients a j := by
        rw [Finset.sum_comm]
        simp only [Finset.mul_sum]
    _ = 0 := by
        simp only [← sum_get₁ hg, hsum, mul_zero, Finset.sum_const_zero]

end Kinematics

end Element

end TensorMechanics
