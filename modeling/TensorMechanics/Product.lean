import TensorMechanics.ColumnMatrix
import TensorMechanics.Logged
import TensorMechanics.Product.Plan
import TensorMechanics.Word

/-!
# Products of matrices

`accumulate` adds the product of two matrices to a third one, entry by entry, with the inner
positions in ascending order. `Plan.run` does the same along a plan: it cuts the matrices into blocks
and runs the plans of the halves.

A forked cut of the inner side computes both partial products from zero and adds them to the target
one after the other. Which half comes first is up to the tasks that compute them, so running a plan
takes a schedule that decides it. If several tasks fault, the fault of the first half is reported.

`addInPlace` adds a product to a target. It answers with its outcome and with what it leaves of the
target; `addInto` and `targetAfter` read the two off its answer.
-/

namespace TensorMechanics.Product

variable {α : Type} [Scalar α]

/-- Adds the product of `a` and `b` to `c`. The columns of `b` come one after the other, for each the
inner positions in order, and for each of these all rows. -/
def accumulate {m k n : Nat} (a : ColumnMatrix α m k) (b : ColumnMatrix α k n)
    (c : ColumnMatrix α m n) : Checked (ColumnMatrix α m n) :=
  let rows := List.finRange m
  let inner := List.finRange k
  (List.finRange n).foldlM (fun c j =>
    inner.foldlM (fun c p =>
      let factor := b.get p j
      rows.foldlM (fun (c : ColumnMatrix α m n) i =>
        match Scalar.mul (a.get i p) factor with
        | .ok term =>
          match Scalar.add (c.get i j) term with
          | .ok x => .ok (c.set i j x)
          | .error fault => .error fault
        | .error fault => .error fault) c) c) c

/-- The two halves of a cut. -/
inductive Half where
  | first
  | second
  deriving DecidableEq, Repr

/-- For every forked cut of the inner side, which half is added to the target first. A cut is named
by the halves that lead to it, the innermost one first. -/
abbrev Schedule := List Half → Half

/-- The schedule of one half of a cut. -/
def Schedule.within (schedule : Schedule) (half : Half) : Schedule :=
  fun path => schedule (path ++ [half])

/-- The schedule that always adds the first half first. -/
def Schedule.inOrder : Schedule := fun _ => .first

/-- Adds the results of two tasks to a matrix. A fault of the first task is reported before one of
the second. -/
def merge {m n : Nat} (earlier : Half) (first second : Checked (ColumnMatrix α m n))
    (c : ColumnMatrix α m n) : Checked (ColumnMatrix α m n) :=
  match first, second with
  | .error fault, _ => .error fault
  | .ok x, .error fault =>
    match c.add x with
    | .ok _ => .error fault
    | .error earlierFault => .error earlierFault
  | .ok x, .ok y =>
    match earlier with
    | .first => do (← c.add x).add y
    | .second => do (← c.add y).add x

/-- Adds the product of `a` and `b` to `c` along a plan. -/
def Plan.run {m k n : Nat} : Plan m k n → Schedule → ColumnMatrix α m k → ColumnMatrix α k n →
    ColumnMatrix α m n → Checked (ColumnMatrix α m n)
  | .skip, _, _, _, c => .ok c
  | .leaf, _, a, b, c => accumulate a b c
  | .rows _ _ h _ top bottom, s, a, b, c => do
    let upper ← top.run (s.within .first) (a.topRows h) b (c.topRows h)
    let lower ← bottom.run (s.within .second) (a.bottomRows h) b (c.bottomRows h)
    return ColumnMatrix.above h upper lower
  | .columns _ _ h _ left right, s, a, b, c => do
    let x ← left.run (s.within .first) a (b.leftColumns h) (c.leftColumns h)
    let y ← right.run (s.within .second) a (b.rightColumns h) (c.rightColumns h)
    return ColumnMatrix.beside h x y
  | .inner _ _ h true first second, s, a, b, c =>
    let zero := ColumnMatrix.replicate m n (Scalar.zero : α)
    merge (s [])
      (first.run (s.within .first) (a.leftColumns h) (b.topRows h) zero)
      (second.run (s.within .second) (a.rightColumns h) (b.bottomRows h) zero) c
  | .inner _ _ h false first second, s, a, b, c => do
    let c ← first.run (s.within .first) (a.leftColumns h) (b.topRows h) c
    second.run (s.within .second) (a.rightColumns h) (b.bottomRows h) c

/-! ## Settings -/

/-- The least number of binary forks that occupies a number of threads, which is the number of
binary digits of one less. No thread counts as one. -/
def threadDepthLimit (threads : Nat) : Nat := bitLength (max threads 1 - 1)
where
  /-- The number of binary digits. -/
  bitLength (n : Nat) : Nat := if n = 0 then 0 else Nat.log2 n + 1

/-- The same by operations on index words: 64 less the leading zeros of one less than the number of
threads, where no thread counts as one. -/
def threadDepthLimitInWords (threads : Nat) : Checked Nat := do
  let last ← Word.sub (max threads 1) 1
  Word.sub 64 (Word.leadingZeros last)

/-- How to cut products. -/
structure Settings where
  /-- Blocks with no side above this size are multiplied directly. -/
  leafSize : Nat
  /-- The number of levels of cuts that may be forked. -/
  maxParallelDepth : Nat
  deriving DecidableEq, Repr

/-- The settings for a number of threads. -/
def Settings.forThreads (threads : Nat) : Settings := ⟨64, threadDepthLimit threads⟩

/-- The plan for a product with the given settings. -/
def Settings.plan (settings : Settings) (m k n : Nat) : Plan m k n :=
  Plan.build settings.leafSize settings.maxParallelDepth m k n

/-! ## Matrices of any size -/

/-- The record of a product that is about to be computed. -/
structure Event where
  /-- Rows and columns of the left factor. -/
  left : Nat × Nat
  /-- Rows and columns of the right factor. -/
  right : Nat × Nat
  settings : Settings
  deriving DecidableEq, Repr

/-- The line that reports a product. -/
def Event.line (e : Event) : String :=
  Level.debug.line
    (s!"Multiplying {e.left.1}x{e.left.2} by {e.right.1}x{e.right.2} " ++
      s!"(leaf size {e.settings.leafSize}, parallel depth {e.settings.maxParallelDepth})")

open ColumnMatrix

/-- The product of two matrices, entry by entry. -/
def direct (a b : Sized α) : Checked (Sized α) :=
  if h : a.columns = b.rows then do
    let zero := ColumnMatrix.replicate a.rows b.columns (Scalar.zero : α)
    return ⟨_, _, ← accumulate (a.matrix.recast rfl h) b.matrix zero⟩
  else
    .error (.innerDimensions a.columns b.rows)

/-- What a product stops with that is added to a target. -/
structure Stop (α : Type) where
  /-- Why it stops. -/
  fault : Fault
  /-- What it leaves of the target. Between two writes of a run the target is not determined. -/
  target : Option (Sized α)

/-- A computation that works on a target. It answers with the target that it leaves, also if it
stops. -/
abbrev InPlace (α β : Type) := StateT (Sized α) (Logged Event (Stop α)) β

theorem InPlace.run_get_bind {α β : Type} (f : Sized α → InPlace α β) (c : Sized α) :
    (get >>= f).run c = (f c).run c := rfl

/-- Stops. The target stays as it is by then. -/
def InPlace.stop {β : Type} (fault : Fault) : InPlace α β := fun c => .fail ⟨fault, some c⟩

/-- Reports an event. -/
def InPlace.report (event : Event) : InPlace α Unit := StateT.lift (.report event)

/-- Overwrites the target by what a run makes of it. A run that faults has written a part of it. -/
def InPlace.overwrite (outcome : Checked (Sized α)) : InPlace α Unit := fun _ =>
  match outcome with
  | .ok c => pure ((), c)
  | .error fault => .fail ⟨fault, none⟩

/-- Adds the product of `a` and `b` to the target in blocks. The dimensions are checked first, then the
product is reported, and only then is the target written to, along the plan. -/
def addInPlace (settings : Settings) (schedule : Schedule) (a b : Sized α) : InPlace α Unit := do
  let c ← get
  if h : a.columns = b.rows then
    if hc : c.rows = a.rows ∧ c.columns = b.columns then
      .report ⟨(a.rows, a.columns), (b.rows, b.columns), settings⟩
      let plan := settings.plan a.rows b.rows b.columns
      .overwrite do
        let sum ← plan.run schedule (a.matrix.recast rfl h) b.matrix (c.matrix.recast hc.1 hc.2)
        return ⟨_, _, sum⟩
    else
      .stop (.outputShape (c.rows, c.columns) (a.rows, b.columns))
  else
    .stop (.innerDimensions a.columns b.rows)

/-- Adds the product of `a` and `b` to `c` in blocks: the sum that is left in the target, or the
fault. -/
def addInto (settings : Settings) (schedule : Schedule) (c a b : Sized α) :
    Logged Event Fault (Sized α) :=
  let answer := (addInPlace settings schedule a b).run c
  ⟨answer.log,
    match answer.result with
    | .ok (_, c) => .ok c
    | .error stop => .error stop.fault⟩

/-- What is left in the target `c` when the product of `a` and `b` has been added to it or has faulted, if
that is determined. -/
def targetAfter (settings : Settings) (schedule : Schedule) (c a b : Sized α) : Option (Sized α) :=
  match ((addInPlace settings schedule a b).run c).result with
  | .ok (_, c) => some c
  | .error stop => stop.target

/-- The dimensions agree for adding the product of `a` and `b` to `c`. -/
def Agree (c a b : Sized α) : Prop :=
  a.columns = b.rows ∧ c.rows = a.rows ∧ c.columns = b.columns

instance (c a b : Sized α) : Decidable (Agree c a b) :=
  inferInstanceAs (Decidable (_ ∧ _ ∧ _))

/-- The product of two matrices, computed in blocks. -/
def blocked (settings : Settings) (schedule : Schedule) (a b : Sized α) :
    Logged Event Fault (Sized α) :=
  addInto settings schedule ⟨_, _, .replicate a.rows b.columns Scalar.zero⟩ a b

end TensorMechanics.Product
