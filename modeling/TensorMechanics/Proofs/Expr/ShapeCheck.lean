import Mathlib
import TensorMechanics.Expr.Buffers
import TensorMechanics.Proofs.MultiIndex.Walk

/-!
# Proofs: the shape check of a contraction

Three conditions on the ranks of a contraction are written down in three places: as a chain of tests
that ends in an error, as assertions, and implicitly in the ranges that an evaluation copies. They
agree, except that copying has nothing against a contraction over no axes or one that leaves no axis.

An evaluation that keeps its buffers from one term to the next has the same outcome as one that splices
new indices for every term, also where the ranks do not fit: a placement overwrites exactly what the
one before it wrote. The first one goes on until the contracted index has no successor, the second one
counts its terms; where there are indices, both visit the same ones.
-/

namespace TensorMechanics

variable {α : Type} {d r r₁ r₂ n s : Nat}

namespace Contraction

/-! ## The check and the assertions -/

/-- The conditions on the ranks of a contraction, in order, with the error that reports each. -/
def rankConditions (r₁ r₂ n r : Nat) : List (Bool × ShapeError) :=
  [(decide (1 ≤ n), .noContractedAxes),
    (decide (n ≤ r₁ ∧ n ≤ r₂), .tooManyContractedAxes n r₁ r₂),
    (decide (2 * n < r₁ + r₂), .scalarResult),
    (decide (r = r₁ + r₂ - 2 * n), .rankMismatch (r₁ + r₂ - 2 * n) r)]

/-- The error of the first condition that fails. -/
def firstFailure? (conditions : List (Bool × ShapeError)) : Option ShapeError :=
  (conditions.find? fun c => !c.1).map Prod.snd

/-- The first failure by the tests of the chain. A test needs not say more than that its condition
fails once the tests before it have been passed: with `n ≤ r₁` and `n ≤ r₂`, no axis is left exactly if
`r₁ + r₂ = 2 * n`. -/
theorem firstFailure?_cases (r₁ r₂ n r : Nat) :
    (n = 0 ∧ firstFailure? (rankConditions r₁ r₂ n r) = some .noContractedAxes) ∨
      n ≠ 0 ∧
        ((r₁ < n ∨ r₂ < n) ∧
            firstFailure? (rankConditions r₁ r₂ n r) = some (.tooManyContractedAxes n r₁ r₂) ∨
          ¬ (r₁ < n ∨ r₂ < n) ∧
            (r₁ + r₂ = 2 * n ∧ firstFailure? (rankConditions r₁ r₂ n r) = some .scalarResult ∨
              2 * n < r₁ + r₂ ∧
                (r + 2 * n = r₁ + r₂ ∧ firstFailure? (rankConditions r₁ r₂ n r) = none ∨
                  r + 2 * n ≠ r₁ + r₂ ∧ firstFailure? (rankConditions r₁ r₂ n r) =
                    some (.rankMismatch (r₁ + r₂ - 2 * n) r)))) := by
  by_cases hpos : n = 0
  · left
    simp [rankConditions, firstFailure?, hpos]
  have hone : 1 ≤ n := by omega
  refine .inr ⟨hpos, ?_⟩
  by_cases hmany : r₁ < n ∨ r₂ < n
  · have hnot : ¬ (n ≤ r₁ ∧ n ≤ r₂) := by omega
    exact .inl ⟨hmany, by simp [rankConditions, firstFailure?, hone, hnot]⟩
  have hle : n ≤ r₁ ∧ n ≤ r₂ := by omega
  refine .inr ⟨hmany, ?_⟩
  by_cases hscalar : r₁ + r₂ = 2 * n
  · have hnot : ¬ 2 * n < r₁ + r₂ := by omega
    exact .inl ⟨hscalar, by simp [rankConditions, firstFailure?, hone, hle, hnot]⟩
  have hfree : 2 * n < r₁ + r₂ := by omega
  refine .inr ⟨hfree, ?_⟩
  by_cases hrank : r + 2 * n = r₁ + r₂
  · have hdiff : r = r₁ + r₂ - 2 * n := by omega
    exact .inl ⟨hrank, by simp [rankConditions, firstFailure?, hone, hle, hfree, ← hdiff]⟩
  · have hdiff : ¬ r = r₁ + r₂ - 2 * n := by omega
    exact .inr ⟨hrank, by simp [rankConditions, firstFailure?, hone, hle, hfree, hdiff]⟩

/-- Without an overflow the check answers, with the error of the first condition that fails. -/
theorem checkRanks_eq (hsum : r₁ + r₂ < Word.limit) (hdeclared : r + 2 * n < Word.limit) :
    checkRanks r₁ r₂ n r =
      .ok ((firstFailure? (rankConditions r₁ r₂ n r)).elim (.ok ()) .error) := by
  have htwice : 2 * n < Word.limit := by omega
  rcases firstFailure?_cases r₁ r₂ n r with ⟨hpos, h⟩ | ⟨hpos, ⟨hmany, h⟩ | ⟨hmany, hrest⟩⟩
  · rw [h, checkRanks, if_pos hpos]
    rfl
  · rw [h, checkRanks, if_neg hpos, if_pos hmany]
    rfl
  rw [checkRanks, if_neg hpos, if_neg hmany, Word.add_of_lt hsum, Checked.ok_bind,
    Word.mul_of_lt htwice, Checked.ok_bind]
  rcases hrest with ⟨hscalar, h⟩ | ⟨hfree, hrest⟩
  · rw [h, if_pos hscalar]
    rfl
  rw [if_neg hfree.ne', Word.add_of_lt hdeclared, Checked.ok_bind]
  rcases hrest with ⟨hrank, h⟩ | ⟨hrank, h⟩
  · rw [h, if_pos hrank]
    rfl
  · rw [h, if_neg hrank, Word.sub_of_le hfree.le]
    rfl

/-- The check that answers with the proof that the ranks fit finds the same errors. -/
theorem map_contractionShape? :
    (contractionShape? r₁ r₂ n r).map (fun _ => ()) =
      (firstFailure? (rankConditions r₁ r₂ n r)).elim (.ok ()) .error := by
  rcases firstFailure?_cases r₁ r₂ n r with ⟨hpos, h⟩ | ⟨hpos, ⟨hmany, h⟩ | ⟨hmany, hrest⟩⟩
  · rw [h, contractionShape?, dif_pos hpos]
    rfl
  · rw [h, contractionShape?, dif_neg hpos, dif_pos hmany]
    rfl
  rw [contractionShape?, dif_neg hpos, dif_neg hmany]
  rcases hrest with ⟨hscalar, h⟩ | ⟨hfree, ⟨hrank, h⟩ | ⟨hrank, h⟩⟩
  · rw [h, dif_pos hscalar]
    rfl
  · rw [h, dif_neg hfree.ne', dif_pos hrank]
    rfl
  · rw [h, dif_neg hfree.ne', dif_neg hrank]
    rfl

/-- No condition fails exactly if the ranks fit. -/
theorem firstFailure?_eq_none :
    firstFailure? (rankConditions r₁ r₂ n r) = none ↔ ContractionShape r₁ r₂ n r := by
  simp only [firstFailure?, rankConditions, Option.map_eq_none_iff, List.find?_eq_none,
    List.forall_mem_cons]
  simp only [Bool.not_eq_true', decide_eq_false_iff_not, not_not, List.not_mem_nil,
    false_imp_iff, implies_true, and_true]
  constructor
  · rintro ⟨hpos, ⟨hleft, hright⟩, hfree, hrank⟩
    exact ⟨hpos, hleft, hright, hfree, by omega⟩
  · intro h
    have hrank := h.rank
    exact ⟨h.pos, ⟨h.le_left, h.le_right⟩, h.free, by omega⟩

theorem checkRanks_eq_ok (hsum : r₁ + r₂ < Word.limit) (hdeclared : r + 2 * n < Word.limit) :
    checkRanks r₁ r₂ n r = .ok (.ok ()) ↔ ContractionShape r₁ r₂ n r := by
  rw [checkRanks_eq hsum hdeclared, ← firstFailure?_eq_none]
  cases firstFailure? (rankConditions r₁ r₂ n r) with
  | none => simp
  | some e => simp

theorem rankAssertions_hold (hsum : r₁ + r₂ < Word.limit) (hdeclared : r + 2 * n < Word.limit) :
    (∀ a ∈ rankAssertions r₁ r₂ n r, a.1 = .ok true) ↔ ContractionShape r₁ r₂ n r := by
  have htwice : 2 * n < Word.limit := by omega
  simp only [rankAssertions, Word.add_of_lt hsum, Word.mul_of_lt htwice, Word.add_of_lt hdeclared,
    Checked.ok_bind, Checked.pure_eq_ok, List.forall_mem_cons]
  simp only [Except.ok.injEq, decide_eq_true_eq, List.not_mem_nil, false_imp_iff, implies_true,
    and_true]
  constructor
  · rintro ⟨hpos, ⟨hleft, hright⟩, hfree, hrank⟩
    exact ⟨hpos, hleft, hright, hfree, hrank⟩
  · intro h
    exact ⟨h.pos, ⟨h.le_left, h.le_right⟩, h.free, h.rank⟩

/-! ## Ranges -/

section Ranges

variable {buffer target : MultiIndex s} {p : Nat} {run : List Nat} {source : Checked (List Nat)}

theorem sliceBefore_eq_ok :
    sliceBefore buffer p = .ok run ↔ p ≤ s ∧ buffer.components.take p = run := by
  by_cases hp : p ≤ s
  · simp [sliceBefore, hp]
  · simp [sliceBefore, hp]

theorem sliceFrom_eq_ok :
    sliceFrom buffer p = .ok run ↔ p ≤ s ∧ buffer.components.drop p = run := by
  by_cases hp : p ≤ s
  · simp [sliceFrom, hp]
  · simp [sliceFrom, hp]

theorem copyBefore_eq_ok :
    copyBefore buffer p source = .ok target ↔
      p ≤ s ∧ ∃ run, source = .ok run ∧ run.length = p ∧
        target.components = run ++ buffer.components.drop p := by
  by_cases hp : p ≤ s
  · cases source with
    | error fault => simp [copyBefore, hp]
    | ok run =>
      by_cases hrun : run.length = p
      · simp [copyBefore, hp, hrun, MultiIndex.ext_iff, eq_comm]
      · simp [copyBefore, hp, hrun]
  · simp [copyBefore, hp]

theorem copyFrom_eq_ok :
    copyFrom buffer p source = .ok target ↔
      p ≤ s ∧ ∃ run, source = .ok run ∧ run.length = s - p ∧
        target.components = buffer.components.take p ++ run := by
  by_cases hp : p ≤ s
  · cases source with
    | error fault => simp [copyFrom, hp]
    | ok run =>
      by_cases hrun : run.length = s - p
      · simp [copyFrom, hp, hrun, MultiIndex.ext_iff, eq_comm]
      · simp [copyFrom, hp, hrun]
  · simp [copyFrom, hp]

/-- What is copied before a position only depends on the components from there on. -/
theorem copyBefore_congr {buffer' : MultiIndex s}
    (h : buffer.components.drop p = buffer'.components.drop p) :
    copyBefore buffer p source = copyBefore buffer' p source := by
  unfold copyBefore
  simp only [h]

theorem copyFrom_congr {buffer' : MultiIndex s}
    (h : buffer.components.take p = buffer'.components.take p) :
    copyFrom buffer p source = copyFrom buffer' p source := by
  unfold copyFrom
  simp only [h]

end Ranges

/-! ## Placements -/

/-- Two pairs of buffers have the same free components. -/
def SameFree (free n : Nat) (b b' : MultiIndex r₁ × MultiIndex r₂) : Prop :=
  b.1.components.take free = b'.1.components.take free ∧
    b.2.components.drop n = b'.2.components.drop n

theorem placeContracted_congr {free : Nat} {b b' : MultiIndex r₁ × MultiIndex r₂}
    (h : SameFree free n b b') (k : MultiIndex n) :
    placeContracted free b k = placeContracted free b' k := by
  rw [placeContracted, placeContracted, copyFrom_congr h.1, copyBefore_congr h.2]

theorem placeContracted_eq_ok {free : Nat} {b b' : MultiIndex r₁ × MultiIndex r₂}
    {k : MultiIndex n} :
    placeContracted free b k = .ok b' ↔ free ≤ r₁ ∧ n = r₁ - free ∧ n ≤ r₂ ∧
      b'.1.components = b.1.components.take free ++ k.components ∧
      b'.2.components = k.components ++ b.2.components.drop n := by
  simp only [placeContracted, Checked.bind_eq_ok, copyFrom_eq_ok, copyBefore_eq_ok,
    Except.ok.injEq, exists_eq_left', k.length_components, Checked.pure_eq_ok]
  constructor
  · rintro ⟨left, ⟨hfree, hn, hleft⟩, right, ⟨hright, -, hcomponents⟩, rfl⟩
    exact ⟨hfree, hn, hright, hleft, hcomponents⟩
  · rintro ⟨hfree, hn, hright, hleft, hcomponents⟩
    exact ⟨b'.1, ⟨hfree, hn, hleft⟩, b'.2, ⟨hright, trivial, hcomponents⟩, rfl⟩

/-- Placing the contracted components keeps the free ones. -/
theorem sameFree_of_placeContracted {free : Nat} {b b' : MultiIndex r₁ × MultiIndex r₂}
    {k : MultiIndex n} (h : placeContracted free b k = .ok b') : SameFree free n b' b := by
  obtain ⟨hfree, -, -, hleft, hright⟩ := placeContracted_eq_ok.mp h
  have hlen : (b.1.components.take free).length = free := by
    rw [List.length_take, b.1.length_components, Nat.min_eq_left hfree]
  constructor
  · rw [hleft, List.take_left' hlen]
  · rw [hright, List.drop_left' k.length_components]

/-- The free components find their ranges, with the lengths that they have, exactly if the ranks fit.
A contraction over no axes or over all of them is no obstacle here. -/
theorem freeBuffers_eq_ok {ix : MultiIndex r} {b : MultiIndex r₁ × MultiIndex r₂}
    (hleft : n ≤ r₁) :
    freeBuffers (r₁ - n) n ix = .ok b ↔ n ≤ r₂ ∧ r + 2 * n = r₁ + r₂ ∧
      b.1.components = ix.components.take (r₁ - n) ++ (MultiIndex.zeros r₁).components.drop (r₁ - n) ∧
      b.2.components = (MultiIndex.zeros r₂).components.take n ++ ix.components.drop (r₁ - n) := by
  simp only [freeBuffers, Checked.bind_eq_ok, copyFrom_eq_ok, copyBefore_eq_ok, sliceBefore_eq_ok,
    sliceFrom_eq_ok, Checked.pure_eq_ok, Except.ok.injEq]
  constructor
  · rintro ⟨left, ⟨-, run, ⟨hrange, rfl⟩, -, hcomponents⟩, right,
      ⟨hright, run, ⟨-, rfl⟩, hrun, hcomponents'⟩, rfl⟩
    rw [List.length_drop, ix.length_components] at hrun
    exact ⟨hright, by omega, hcomponents, hcomponents'⟩
  · rintro ⟨hright, hrank, hcomponents, hcomponents'⟩
    refine ⟨b.1, ⟨by omega, _, ⟨by omega, rfl⟩, ?_, hcomponents⟩, b.2,
      ⟨hright, _, ⟨by omega, rfl⟩, ?_, hcomponents'⟩, rfl⟩
    · rw [List.length_take, ix.length_components]
      omega
    · rw [List.length_drop, ix.length_components]
      omega

theorem exists_freeBuffers (hleft : n ≤ r₁) (hright : n ≤ r₂) (hrank : r + 2 * n = r₁ + r₂)
    (ix : MultiIndex r) :
    ∃ b : MultiIndex r₁ × MultiIndex r₂, freeBuffers (r₁ - n) n ix = .ok b := by
  have hrow : (ix.components.take (r₁ - n) ++
      (MultiIndex.zeros r₁).components.drop (r₁ - n)).length = r₁ := by
    rw [List.length_append, List.length_take, List.length_drop, ix.length_components,
      MultiIndex.length_components]
    omega
  have hcolumn : ((MultiIndex.zeros r₂).components.take n ++
      ix.components.drop (r₁ - n)).length = r₂ := by
    rw [List.length_append, List.length_take, List.length_drop, ix.length_components,
      MultiIndex.length_components]
    omega
  exact ⟨(⟨_, hrow⟩, ⟨_, hcolumn⟩), (freeBuffers_eq_ok hleft).mpr ⟨hright, hrank, rfl, rfl⟩⟩

theorem exists_placeContracted (hleft : n ≤ r₁) (hright : n ≤ r₂)
    (b : MultiIndex r₁ × MultiIndex r₂) (k : MultiIndex n) :
    ∃ b', placeContracted (r₁ - n) b k = .ok b' := by
  have hrow : (b.1.components.take (r₁ - n) ++ k.components).length = r₁ := by
    rw [List.length_append, List.length_take, b.1.length_components, k.length_components]
    omega
  have hcolumn : (k.components ++ b.2.components.drop n).length = r₂ := by
    rw [List.length_append, List.length_drop, b.2.length_components, k.length_components]
    omega
  exact ⟨(⟨_, hrow⟩, ⟨_, hcolumn⟩),
    placeContracted_eq_ok.mpr ⟨Nat.sub_le r₁ n, by omega, hright, rfl, rfl⟩⟩

/-- A range that starts or ends beyond its buffer, and runs of unequal length, stop the copying of the
free components. -/
theorem freeBuffers_eq_error (r₁ r₂ n : Nat) (ix : MultiIndex r) :
    (r < r₁ - n → (freeBuffers (r₁ - n) n ix : Checked (MultiIndex r₁ × MultiIndex r₂)) =
      .error (.rangeOutOfBounds (r₁ - n) r)) ∧
    (r₁ - n ≤ r → r₂ < n → (freeBuffers (r₁ - n) n ix : Checked (MultiIndex r₁ × MultiIndex r₂)) =
      .error (.rangeStartOutOfBounds n r₂)) ∧
    (r₁ - n ≤ r → n ≤ r₂ → r - (r₁ - n) ≠ r₂ - n →
      (freeBuffers (r₁ - n) n ix : Checked (MultiIndex r₁ × MultiIndex r₂)) =
        .error (.runLength (r₂ - n) (r - (r₁ - n)))) := by
  have hbound : r₁ - n ≤ r₁ := Nat.sub_le r₁ n
  have hfirst : r₁ - n ≤ r → ∃ left : MultiIndex r₁,
      copyBefore (.zeros r₁) (r₁ - n) (sliceBefore ix (r₁ - n)) = .ok left := by
    intro hrange
    have hrun : (ix.components.take (r₁ - n)).length = r₁ - n := by
      rw [List.length_take, ix.length_components, Nat.min_eq_left hrange]
    rw [sliceBefore, if_pos hrange, copyBefore, dif_pos hbound]
    simp only [hrun, dite_true]
    exact ⟨_, rfl⟩
  refine ⟨fun hrange => ?_, fun hrange hright => ?_, fun hrange hright hrun => ?_⟩
  · rw [freeBuffers, sliceBefore, if_neg (by omega), copyBefore, dif_pos hbound, Checked.error_bind]
  · obtain ⟨left, hcopy⟩ := hfirst hrange
    rw [freeBuffers, hcopy, Checked.ok_bind, copyFrom, dif_neg (by omega), Checked.error_bind]
  · obtain ⟨left, hcopy⟩ := hfirst hrange
    have hlength : (ix.components.drop (r₁ - n)).length = r - (r₁ - n) := by
      rw [List.length_drop, ix.length_components]
    rw [freeBuffers, hcopy, Checked.ok_bind, sliceFrom, if_pos hrange, copyFrom, dif_pos hright]
    simp only [hlength, hrun, dite_false, Checked.error_bind]

theorem ofRun_components (ix : MultiIndex s) : ofRun s ix.components = .ok ix :=
  dif_pos ix.length_components

/-- Splicing new indices is placing the contracted components into fresh buffers. -/
theorem operandIndices_eq_place (ix : MultiIndex r) (k : MultiIndex n) :
    operandIndices r₁ r₂ ix k =
      (Word.sub r₁ n >>= fun free => freeBuffers free n ix >>= fun b => placeContracted free b k) := by
  by_cases hleft : n ≤ r₁
  swap
  · rw [operandIndices, Word.sub, if_neg hleft]
    rfl
  obtain ⟨hrange, hstart, hlength⟩ := freeBuffers_eq_error r₁ r₂ n ix
  rw [operandIndices, Word.sub_of_le hleft, Checked.ok_bind, Checked.ok_bind]
  by_cases hfree : r < r₁ - n
  · rw [if_pos hfree, hrange hfree]
    rfl
  have hfree' : r₁ - n ≤ r := Nat.not_lt.mp hfree
  rw [if_neg hfree]
  by_cases hright : r₂ < n
  · rw [if_pos hright, hstart hfree' hright]
    rfl
  have hright' : n ≤ r₂ := Nat.not_lt.mp hright
  rw [if_neg hright]
  have hdrop : (ix.components.drop (r₁ - n)).length = r - (r₁ - n) := by
    rw [List.length_drop, ix.length_components]
  by_cases hrun : r - (r₁ - n) = r₂ - n
  swap
  · rw [copyRun, hdrop, if_neg hrun, hlength hfree' hright' hrun]
    rfl
  obtain ⟨b, hb⟩ := exists_freeBuffers hleft hright' (by omega) ix
  obtain ⟨b', hb'⟩ := exists_placeContracted hleft hright' b k
  obtain ⟨-, -, hrow, hcolumn⟩ := (freeBuffers_eq_ok hleft).mp hb
  obtain ⟨-, -, -, hrow', hcolumn'⟩ := placeContracted_eq_ok.mp hb'
  have htake : (ix.components.take (r₁ - n)).length = r₁ - n := by
    rw [List.length_take, ix.length_components, Nat.min_eq_left hfree']
  have hzeros : ((MultiIndex.zeros r₂).components.take n).length = n := by
    rw [List.length_take, MultiIndex.length_components, Nat.min_eq_left hright']
  rw [hrow, List.take_left' htake] at hrow'
  rw [hcolumn, List.drop_left' hzeros] at hcolumn'
  rw [copyRun, hdrop, if_pos hrun, Checked.ok_bind, ← hrow', ← hcolumn', ofRun_components,
    ofRun_components, hb]
  exact hb'.symm

/-! ## Evaluation by way of buffers -/

/-- Adds to a sum the product of the values at the indices of both operands. -/
def addProduct [Scalar α] (left : MultiIndex r₁ → Checked α) (right : MultiIndex r₂ → Checked α)
    (acc : α) (indices : MultiIndex r₁ × MultiIndex r₂) : Checked α := do
  let x ← left indices.1
  let y ← right indices.2
  Scalar.add acc (← Scalar.mul x y)

theorem map_addTerm [Scalar α] (free : Nat) (left : MultiIndex r₁ → Checked α)
    (right : MultiIndex r₂ → Checked α) (c : α × (MultiIndex r₁ × MultiIndex r₂)) (k : MultiIndex n) :
    Prod.fst <$> addTerm free left right c k =
      placeContracted free c.2 k >>= addProduct left right c.1 := by
  simp only [addTerm, map_bind, map_pure, bind_pure]
  rfl

theorem sameFree_of_addTerm [Scalar α] {free : Nat} {left : MultiIndex r₁ → Checked α}
    {right : MultiIndex r₂ → Checked α} {c c' : α × (MultiIndex r₁ × MultiIndex r₂)}
    {k : MultiIndex n} (h : addTerm free left right c k = .ok c') : SameFree free n c'.2 c.2 := by
  obtain ⟨b, hb, hterm⟩ := Checked.bind_eq_ok.mp h
  obtain ⟨x, -, hterm⟩ := Checked.bind_eq_ok.mp hterm
  obtain ⟨y, -, hterm⟩ := Checked.bind_eq_ok.mp hterm
  obtain ⟨xy, -, hterm⟩ := Checked.bind_eq_ok.mp hterm
  obtain ⟨total, -, hterm⟩ := Checked.bind_eq_ok.mp hterm
  obtain rfl := Except.ok.inj hterm
  exact sameFree_of_placeContracted hb

/-- Whatever the ranks are, it makes no difference whether the buffers are kept from one term to the
next, and whether the terms are counted or the last one is found by advancing the contracted index. -/
theorem valueAt_eq_valueInBuffers [Scalar α] (hd : 0 < d) (left : MultiIndex r₁ → Checked α)
    (right : MultiIndex r₂ → Checked α) (ix : MultiIndex r) :
    valueAt d n left right ix = valueInBuffers d n left right ix := by
  have hpos : 0 < d ^ n := Nat.pow_pos hd
  rw [valueAt, valueInBuffers]
  simp only [Walk.foldToLast_zeros _ hpos, operandIndices_eq_place]
  cases hsub : Word.sub r₁ n with
  | error fault => exact Walk.foldl_full_of_error hpos rfl
  | ok free =>
    simp only [Checked.ok_bind]
    cases hfree : (freeBuffers free n ix : Checked (MultiIndex r₁ × MultiIndex r₂)) with
    | error fault => exact Walk.foldl_full_of_error hpos rfl
    | ok b =>
      simp only [Checked.ok_bind]
      -- the free components stay those of `b`, and a placement looks at nothing else
      have hkeep : ∀ (c : α × (MultiIndex r₁ × MultiIndex r₂)) (k : MultiIndex n) c',
          SameFree free n c.2 b → addTerm free left right c k = .ok c' → SameFree free n c'.2 b := by
        intro c k c' hc hterm
        have hstep := sameFree_of_addTerm hterm
        exact ⟨hstep.1.trans hc.1, hstep.2.trans hc.2⟩
      have hfold := Walk.map_foldFrom (d := d)
        (f := fun acc k => placeContracted free b k >>= addProduct left right acc) Prod.fst
        (fun c => SameFree free n c.2 b)
        (fun c k hc => by rw [map_addTerm, placeContracted_congr hc]) hkeep
        (d ^ n) (.zeros n) (c := (Scalar.zero, b)) ⟨rfl, rfl⟩
      exact hfold.symm

/-! ## Agreement -/

/-- Every range that an evaluation at an index cuts out of a buffer lies in it and is as long as the run
that is copied there, however many terms there are. -/
def SlicesInRange (r₁ r₂ n : Nat) (ix : MultiIndex r) : Prop :=
  ∃ free, Word.sub r₁ n = .ok free ∧
    ∃ b : MultiIndex r₁ × MultiIndex r₂, freeBuffers free n ix = .ok b ∧
      ∀ ks : List (MultiIndex n), ∃ b', ks.foldlM (placeContracted free) b = .ok b'

/-- A contraction over no axes or over all of them is no obstacle to the copies. -/
theorem slicesInRange_iff (ix : MultiIndex r) :
    SlicesInRange r₁ r₂ n ix ↔ n ≤ r₁ ∧ n ≤ r₂ ∧ r + 2 * n = r₁ + r₂ := by
  constructor
  · rintro ⟨free, hsub, b, hb, -⟩
    by_cases hleft : n ≤ r₁
    · rw [Word.sub_of_le hleft] at hsub
      obtain rfl := Except.ok.inj hsub
      obtain ⟨hright, hrank, -⟩ := (freeBuffers_eq_ok hleft).mp hb
      exact ⟨hleft, hright, hrank⟩
    · rw [Word.sub, if_neg hleft] at hsub
      cases hsub
  · rintro ⟨hleft, hright, hrank⟩
    obtain ⟨b, hb⟩ := exists_freeBuffers hleft hright hrank ix
    refine ⟨r₁ - n, Word.sub_of_le hleft, b, hb, fun ks => ?_⟩
    exact Checked.exists_foldlM_eq_ok (fun k _ b => exists_placeContracted hleft hright b k) b

/-- Where the ranks can be added, the check of a contraction answers, with the error of the first
condition that fails, and accepts exactly the ranks for which all assertions hold. What it accepts is
evaluated without a range or a run that does not fit. Conversely, of contractions over at least one axis
with at least one axis left only those that it accepts are. Whatever the ranks are, the evaluation by way of
buffers, which stops at the contracted index without a successor, has the outcome of the one that counts
its terms. -/
theorem rank_checks_agree (hsum : r₁ + r₂ < Word.limit) (hdeclared : r + 2 * n < Word.limit) :
    checkRanks r₁ r₂ n r =
        .ok ((firstFailure? (rankConditions r₁ r₂ n r)).elim (.ok ()) .error) ∧
      checkRanks r₁ r₂ n r = .ok ((contractionShape? r₁ r₂ n r).map fun _ => ()) ∧
      (checkRanks r₁ r₂ n r = .ok (.ok ()) ↔ ∀ a ∈ rankAssertions r₁ r₂ n r, a.1 = .ok true) ∧
      (checkRanks r₁ r₂ n r = .ok (.ok ()) ↔
        1 ≤ n ∧ n ≤ r₁ ∧ n ≤ r₂ ∧ 2 * n < r₁ + r₂ ∧ r = r₁ + r₂ - 2 * n) ∧
      (checkRanks r₁ r₂ n r = .ok (.ok ()) → ∀ ix : MultiIndex r, SlicesInRange r₁ r₂ n ix) ∧
      (1 ≤ n → 1 ≤ r → ∀ ix : MultiIndex r, SlicesInRange r₁ r₂ n ix →
        checkRanks r₁ r₂ n r = .ok (.ok ())) ∧
      ∀ {α : Type} [Scalar α] {d : Nat}, 0 < d → ∀ (left : MultiIndex r₁ → Checked α)
        (right : MultiIndex r₂ → Checked α) (ix : MultiIndex r),
        valueAt d n left right ix = valueInBuffers d n left right ix := by
  have hcheck := checkRanks_eq hsum hdeclared
  have haccept := checkRanks_eq_ok hsum hdeclared
  refine ⟨hcheck, by rw [hcheck, map_contractionShape?], ?_, ?_, ?_, ?_,
    fun hd => valueAt_eq_valueInBuffers hd⟩
  · rw [haccept, rankAssertions_hold hsum hdeclared]
  · rw [haccept]
    constructor
    · intro h
      have hrank := h.rank
      exact ⟨h.pos, h.le_left, h.le_right, h.free, by omega⟩
    · rintro ⟨hpos, hleft, hright, hfree, hrank⟩
      exact ⟨hpos, hleft, hright, hfree, by omega⟩
  · intro h ix
    have hshape := haccept.mp h
    exact (slicesInRange_iff ix).mpr ⟨hshape.le_left, hshape.le_right, hshape.rank⟩
  · intro hpos hr ix h
    obtain ⟨hleft, hright, hrank⟩ := (slicesInRange_iff ix).mp h
    exact haccept.mpr ⟨hpos, hleft, hright, by omega, hrank⟩

/-- A tensor of rank 4 may act on one of rank 2, but the product of two matrices has rank 2. -/
theorem rank_checks_agree_double :
    (4 + 2 < Word.limit ∧ 2 + 2 * 2 < Word.limit ∧ checkRanks 4 2 2 2 = .ok (.ok ()) ∧
      SlicesInRange 4 2 2 (⟨[0, 1], rfl⟩ : MultiIndex 2)) ∧
    2 + 2 < Word.limit ∧ 1 + 2 * 1 < Word.limit ∧
      checkRanks 2 2 1 1 = .ok (.error (.rankMismatch 2 1)) ∧
      ¬ SlicesInRange 2 2 1 (⟨[0], rfl⟩ : MultiIndex 1) := by
  have hsum : 4 + 2 < Word.limit := by decide
  have hdeclared : 2 + 2 * 2 < Word.limit := by decide
  have hsum' : 2 + 2 < Word.limit := by decide
  have hdeclared' : 1 + 2 * 1 < Word.limit := by decide
  obtain ⟨-, -, -, haccept, hslices, -⟩ := rank_checks_agree hsum hdeclared
  obtain ⟨hreject, -, -, -, -, honly, -⟩ := rank_checks_agree hsum' hdeclared'
  have hok : checkRanks 4 2 2 2 = .ok (.ok ()) := haccept.mpr (by decide)
  have herror : checkRanks 2 2 1 1 = .ok (.error (.rankMismatch 2 1)) := hreject
  refine ⟨⟨hsum, hdeclared, hok, hslices hok _⟩, hsum', hdeclared', herror, fun h => ?_⟩
  have hok' := honly le_rfl le_rfl _ h
  rw [herror] at hok'
  cases hok'

end Contraction

end TensorMechanics
