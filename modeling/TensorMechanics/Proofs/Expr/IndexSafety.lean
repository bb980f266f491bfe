import Mathlib
import TensorMechanics.Proofs.Expr.Evaluation

/-!
# Proofs: index safety of expressions

Nodes hand their index down unchecked, cut and spliced as their ranks demand. Nevertheless an
evaluation over total arithmetic faults exactly if a component of its index is not below the
dimension, and then because a tensor found such a component: no component is lost on the way to the
tensors, and none is made up.
-/

namespace TensorMechanics

variable {α : Type} {d r : Nat}

/-- Arithmetic that always answers. -/
structure Scalar.Total (α : Type) [Scalar α] : Prop where
  add (x y : α) : ∃ z, Scalar.add x y = .ok z
  sub (x y : α) : ∃ z, Scalar.sub x y = .ok z
  mul (x y : α) : ∃ z, Scalar.mul x y = .ok z

theorem Scalar.exact_total (α : Type) [Zero α] [One α] [Add α] [Sub α] [Mul α] :
    @Scalar.Total α (Scalar.exact α) :=
  @Scalar.Total.mk α (Scalar.exact α) (fun x y => ⟨x + y, rfl⟩) (fun x y => ⟨x - y, rfl⟩)
    fun x y => ⟨x * y, rfl⟩

namespace Expr

/-- The entries of every tensor in the expression can be counted by an index word. -/
def Addressable : {r : Nat} → Expr α d r → Prop
  | r, .tensor _ => d ^ r < Word.limit
  | _, .scaled operand _ => operand.Addressable
  | _, .sum left right => left.Addressable ∧ right.Addressable
  | _, .difference left right => left.Addressable ∧ right.Addressable
  | _, .outer _ left right => left.Addressable ∧ right.Addressable
  | _, .contraction _ _ left right => left.Addressable ∧ right.Addressable

/-- An expression with an axis has a tensor with an axis, so its dimension is an index word. -/
theorem Addressable.dim_lt_limit {e : Expr α d r} (he : e.Addressable) (hr : 0 < r) :
    d < Word.limit := by
  induction e with
  | tensor t => exact MultiIndex.dim_lt_limit he hr
  | scaled operand alpha ih => exact ih he hr
  | sum left right ihl _ => exact ihl he.1 hr
  | difference left right ihl _ => exact ihl he.1 hr
  | @outer r₁ r₂ r h left right ihl ihr =>
    rcases Nat.eq_zero_or_pos r₁ with hr₁ | hr₁
    · exact ihr he.2 (by omega)
    · exact ihl he.1 hr₁
  | contraction n h left right ihl _ => exact ihl he.1 (h.pos.trans h.le_left)

variable [Scalar α]

/-- At an index in bounds an evaluation answers: no tensor finds a component out of bounds, no run of
components has the wrong length, and no position overflows. -/
theorem evaluate_of_inBounds (total : Scalar.Total α) {e : Expr α d r} (he : e.Addressable)
    {ix : MultiIndex r} (hix : ix.InBounds d) : ∃ x, e.evaluate ix = .ok x := by
  induction e with
  | tensor t =>
    obtain ⟨p, hp, rfl⟩ := hix.exists_ofOffset
    exact ⟨_, t.read_ofOffset he hp⟩
  | scaled operand alpha ih =>
    obtain ⟨x, hx⟩ := ih he hix
    obtain ⟨y, hy⟩ := total.mul x alpha
    exact ⟨y, by rw [evaluate, hx, Checked.ok_bind, hy]⟩
  | sum left right ihl ihr =>
    obtain ⟨x, hx⟩ := ihl he.1 hix
    obtain ⟨y, hy⟩ := ihr he.2 hix
    obtain ⟨z, hz⟩ := total.add x y
    exact ⟨z, by rw [evaluate, hx, Checked.ok_bind, hy, Checked.ok_bind, hz]⟩
  | difference left right ihl ihr =>
    obtain ⟨x, hx⟩ := ihl he.1 hix
    obtain ⟨y, hy⟩ := ihr he.2 hix
    obtain ⟨z, hz⟩ := total.sub x y
    exact ⟨z, by rw [evaluate, hx, Checked.ok_bind, hy, Checked.ok_bind, hz]⟩
  | outer h left right ihl ihr =>
    obtain ⟨hl, hr⟩ := (MultiIndex.inBounds_split h ix).mpr hix
    obtain ⟨x, hx⟩ := ihl he.1 hl
    obtain ⟨y, hy⟩ := ihr he.2 hr
    obtain ⟨z, hz⟩ := total.mul x y
    exact ⟨z, by rw [evaluate, hx, Checked.ok_bind, hy, Checked.ok_bind, hz]⟩
  | @contraction r₁ r₂ r n h left right ihl ihr =>
    have hdim : d < Word.limit := he.1.dim_lt_limit (h.pos.trans h.le_left)
    rw [evaluate, Contraction.valueAt_eq h, Walk.foldl_full _ fun _ => hdim]
    apply Checked.exists_foldlM_eq_ok
    intro p hp acc
    -- the contracted index never leaves the bounds
    have hk := MultiIndex.inBounds_ofOffset (List.mem_range.mp hp)
    obtain ⟨hl, hr⟩ := (h.inBounds_operands ix (.ofOffset d n p)).mpr ⟨hix, hk⟩
    obtain ⟨x, hx⟩ := ihl he.1 hl
    obtain ⟨y, hy⟩ := ihr he.2 hr
    obtain ⟨xy, hxy⟩ := total.mul x y
    obtain ⟨z, hz⟩ := total.add acc xy
    exact ⟨z, by rw [hx, Checked.ok_bind, hy, Checked.ok_bind, hxy, Checked.ok_bind, hz]⟩

/-- At an index out of bounds an evaluation stops at a tensor that receives a component out of
bounds. -/
theorem evaluate_of_not_inBounds (total : Scalar.Total α) (hd : 0 < d) {e : Expr α d r}
    (he : e.Addressable) {ix : MultiIndex r} (hix : ¬ ix.InBounds d) :
    ∃ js, e.evaluate ix = .error (.indexOutOfBounds js d) ∧ ∃ j ∈ js, d ≤ j := by
  induction e with
  | tensor t =>
    exact ⟨ix.components, t.read_of_not_inBounds hix, MultiIndex.not_inBounds_iff.mp hix⟩
  | scaled operand alpha ih =>
    obtain ⟨js, hjs, hout⟩ := ih he hix
    exact ⟨js, by rw [evaluate, hjs, Checked.error_bind], hout⟩
  | sum left right ihl _ =>
    obtain ⟨js, hjs, hout⟩ := ihl he.1 hix
    exact ⟨js, by rw [evaluate, hjs, Checked.error_bind], hout⟩
  | difference left right ihl _ =>
    obtain ⟨js, hjs, hout⟩ := ihl he.1 hix
    exact ⟨js, by rw [evaluate, hjs, Checked.error_bind], hout⟩
  | outer h left right ihl ihr =>
    rw [← MultiIndex.inBounds_split h] at hix
    by_cases hl : (ix.split h).1.InBounds d
    · obtain ⟨x, hx⟩ := evaluate_of_inBounds total he.1 hl
      obtain ⟨js, hjs, hout⟩ := ihr he.2 fun hr => hix ⟨hl, hr⟩
      exact ⟨js, by rw [evaluate, hx, Checked.ok_bind, hjs, Checked.error_bind], hout⟩
    · obtain ⟨js, hjs, hout⟩ := ihl he.1 hl
      exact ⟨js, by rw [evaluate, hjs, Checked.error_bind], hout⟩
  | @contraction r₁ r₂ r n h left right ihl ihr =>
    -- there is a first contracted index, and one of the operands rejects its index there
    have hpos : 0 < d ^ n := Nat.pow_pos hd
    have hk := MultiIndex.inBounds_zeros (d := d) (r := n) hpos
    have hoperands : ¬ ((h.leftIndex ix (.zeros n)).InBounds d ∧
        (h.rightIndex ix (.zeros n)).InBounds d) := fun hb =>
      hix ((h.inBounds_operands ix (.zeros n)).mp hb).1
    rw [evaluate, Contraction.valueAt_eq h]
    by_cases hl : (h.leftIndex ix (.zeros n)).InBounds d
    · obtain ⟨x, hx⟩ := evaluate_of_inBounds total he.1 hl
      obtain ⟨js, hjs, hout⟩ := ihr he.2 fun hr => hoperands ⟨hl, hr⟩
      refine ⟨js, Walk.foldl_full_of_error hpos ?_, hout⟩
      rw [hx, Checked.ok_bind, hjs, Checked.error_bind]
    · obtain ⟨js, hjs, hout⟩ := ihl he.1 hl
      refine ⟨js, Walk.foldl_full_of_error hpos ?_, hout⟩
      rw [hjs, Checked.error_bind]

/-- An evaluation over total arithmetic faults exactly if some component of its index is not below
the dimension, and a component out of bounds at a tensor is the only cause. -/
theorem evaluate_faults_iff (total : Scalar.Total α) (hd : 0 < d) {e : Expr α d r}
    (he : e.Addressable) (ix : MultiIndex r) :
    ((∃ fault, e.evaluate ix = .error fault) ↔ ∃ i ∈ ix.components, d ≤ i) ∧
      ∀ fault, e.evaluate ix = .error fault →
        ∃ js, fault = .indexOutOfBounds js d ∧ ∃ j ∈ js, d ≤ j := by
  rw [← MultiIndex.not_inBounds_iff]
  by_cases hix : ix.InBounds d
  · obtain ⟨x, hx⟩ := evaluate_of_inBounds total he hix
    simp [hx, hix]
  · obtain ⟨js, hjs, hout⟩ := evaluate_of_not_inBounds total hd he hix
    refine ⟨⟨fun _ => hix, fun _ => ⟨_, hjs⟩⟩, fun fault hfault => ?_⟩
    rw [hjs] at hfault
    injection hfault with hfault
    exact ⟨js, hfault.symm, hout⟩

/-- The dyad of a vector, applied to that vector. -/
def dyadAction (v : Tensor α d 1) : Expr α d 1 :=
  .contraction 1 (by constructor <;> decide : ContractionShape 2 1 1 1)
    (.outer dyadRank (.tensor v) (.tensor v)) (.tensor v)

attribute [local instance] Scalar.exact

theorem evaluate_faults_dyadAction :
    Scalar.Total Int ∧ 0 < 2 ∧ (dyadAction (⟨#v[3, 5]⟩ : Tensor Int 2 1)).Addressable ∧
      ∃ fault, (dyadAction (⟨#v[3, 5]⟩ : Tensor Int 2 1)).evaluate ⟨[2], rfl⟩ = .error fault := by
  have total := Scalar.exact_total Int
  have he : (dyadAction (⟨#v[3, 5]⟩ : Tensor Int 2 1)).Addressable := by
    simp [dyadAction, Addressable, Word.limit]
  have hfaults := evaluate_faults_iff total (by decide) he ⟨[2], rfl⟩
  exact ⟨total, by decide, he, hfaults.1.mpr ⟨2, by decide, by decide⟩⟩

end Expr

end TensorMechanics
