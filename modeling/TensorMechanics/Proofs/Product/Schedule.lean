import Mathlib
import TensorMechanics.Proofs.Product.Calls
import TensorMechanics.Proofs.Product.Sequential
import TensorMechanics.Scalar.Bounded

/-!
# Proofs: products do not depend on the schedule

A forked cut of the inner side adds two partial products to its target in either order. Addition of
rounded numbers is not associative, so the order may show. In a product that starts from zeros it
does not, because such a cut always finds zeros: no call that may still fork has another target. So
all that is needed is that two numbers can be added to zero in either order.
-/

namespace TensorMechanics

/-- Two numbers can be added to zero in either order. -/
def Scalar.ZeroAddComm (α : Type) [Scalar α] : Prop :=
  ∀ x y : α, Checked.SameAnswer (do Scalar.add (← Scalar.add Scalar.zero x) y)
    (do Scalar.add (← Scalar.add Scalar.zero y) x)

theorem Bounded.zeroAddComm (range : IntRange) : Scalar.ZeroAddComm (Bounded range) := by
  intro x y
  apply Checked.SameAnswer.of_eq
  rw [zero_add, zero_add]
  exact add_comm x y

namespace Product

open ColumnMatrix

variable {α : Type} [Scalar α]

/-! ## The entries of a product from zeros -/

theorem Half.addBoth_zero_sameAnswer (hcomm : Scalar.ZeroAddComm α) (earlier earlier' : Half)
    (x y : α) : Checked.SameAnswer (earlier.addBoth Scalar.zero x y)
      (earlier'.addBoth Scalar.zero x y) := by
  cases earlier with
  | first =>
    cases earlier' with
    | first => exact .of_eq rfl
    | second => exact hcomm x y
  | second =>
    cases earlier' with
    | first => exact hcomm y x
    | second => exact .of_eq rfl

/-- An entry that starts from zero is computed alike under all schedules. -/
theorem Plan.entry_zero_sameAnswer (hcomm : Scalar.ZeroAddComm α) (leafSize depth m k n : Nat)
    (s s' : Schedule) (i : Fin m) (j : Fin n) (terms : List (α × α)) (hterms : terms.length = k) :
    Checked.SameAnswer ((build leafSize depth m k n).entry s i j terms Scalar.zero)
      ((build leafSize depth m k n).entry s' i j terms Scalar.zero) := by
  fun_induction build leafSize depth m k n generalizing s s' terms with
  | case1 => exact .of_eq rfl
  | case2 => exact .of_eq rfl
  | case3 depth m k n _ _ _ ihTop ihBottom =>
    rw [entry, entry]
    by_cases hi : i.val < m / 2
    · rw [dif_pos hi, dif_pos hi]
      exact ihTop _ _ _ _ _ hterms
    · rw [dif_neg hi, dif_neg hi]
      exact ihBottom _ _ _ _ _ hterms
  | case4 depth m k n _ _ _ _ ihLeft ihRight =>
    rw [entry, entry]
    by_cases hj : j.val < n / 2
    · rw [dif_pos hj, dif_pos hj]
      exact ihLeft _ _ _ _ _ hterms
    · rw [dif_neg hj, dif_neg hj]
      exact ihRight _ _ _ _ _ hterms
  | case5 depth m k n _ _ _ _ ihFirst ihSecond =>
    have hfirst : (terms.take (k / 2)).length = k / 2 := by
      rw [List.length_take]
      omega
    have hsecond : (terms.drop (k / 2)).length = k - k / 2 := by
      rw [List.length_drop]
      omega
    rcases Nat.eq_zero_or_pos depth with rfl | hd
    · -- the second half goes on from any number, but without forks no schedule is consulted
      simp only [Nat.lt_irrefl, decide_false, entry]
      rw [entry_build_zero leafSize _ i j hfirst, entry_build_zero leafSize _ i j hfirst]
      refine (Checked.SameAnswer.of_eq rfl).bind fun y => ?_
      rw [entry_build_zero leafSize _ i j hsecond, entry_build_zero leafSize _ i j hsecond]
      exact .of_eq rfl
    · simp only [hd, decide_true, entry]
      refine (ihFirst _ _ _ _ _ hfirst).bind fun x => (ihSecond _ _ _ _ _ hsecond).bind fun y => ?_
      exact Half.addBoth_zero_sameAnswer hcomm (s []) (s' []) x y

theorem blocked_sameAnswer (hcomm : Scalar.ZeroAddComm α) (settings : Settings) (s s' : Schedule)
    {m k n : Nat} (a : ColumnMatrix α m k) (b : ColumnMatrix α k n) :
    Checked.SameAnswer (blocked settings s ⟨m, k, a⟩ ⟨k, n, b⟩).result
      (blocked settings s' ⟨m, k, a⟩ ⟨k, n, b⟩).result := by
  rw [blocked_of_agree, blocked_of_agree]
  refine ((Plan.entrywise_run _ s a b _).sameAnswer (Plan.entrywise_run _ s' a b _)
    fun i j => ?_).map _
  rw [get_replicate]
  exact Plan.entry_zero_sameAnswer hcomm settings.leafSize settings.maxParallelDepth m k n s s' i j
    _ (length_terms a b i j)

/-- The product of two matrices is the same under all schedules, if numbers can be added to zero in
either order; no other law is needed. Under all schedules, every call that may still fork receives a
target of zeros, where the calls are those of a recorded run that computes the product. Bounded
integers can be added to zero in either order, so for them a product that faults under one schedule
faults under all. -/
theorem blocked_schedule_independent :
    (∀ {α : Type} [Scalar α], Scalar.ZeroAddComm α →
      ∀ (settings : Settings) (s s' : Schedule) {m k n : Nat} (a : ColumnMatrix α m k)
        (b : ColumnMatrix α k n),
        Checked.SameAnswer (blocked settings s ⟨m, k, a⟩ ⟨k, n, b⟩).result
          (blocked settings s' ⟨m, k, a⟩ ⟨k, n, b⟩).result ∧
        (blocked settings s ⟨m, k, a⟩ ⟨k, n, b⟩).result =
          ((settings.plan m k n).record settings.maxParallelDepth s a b
            (.replicate m n Scalar.zero)).result.map (fun product => ⟨m, n, product⟩) ∧
        ∀ call ∈ (settings.plan m k n).calls settings.maxParallelDepth s a b
            (.replicate m n Scalar.zero),
          0 < call.depth → call.target = .replicate call.rows call.columns Scalar.zero) ∧
    ∀ {range : IntRange} (settings : Settings) (s s' : Schedule) {m k n : Nat}
      (a : ColumnMatrix (Bounded range) m k) (b : ColumnMatrix (Bounded range) k n),
      (∀ product, (blocked settings s ⟨m, k, a⟩ ⟨k, n, b⟩).result = .ok product ↔
        (blocked settings s' ⟨m, k, a⟩ ⟨k, n, b⟩).result = .ok product) ∧
      ((∃ fault, (blocked settings s ⟨m, k, a⟩ ⟨k, n, b⟩).result = .error fault) ↔
        ∃ fault, (blocked settings s' ⟨m, k, a⟩ ⟨k, n, b⟩).result = .error fault) := by
  constructor
  · intro α _ hcomm settings s s' m k n a b
    refine ⟨blocked_sameAnswer hcomm settings s s' a b, ?_, fun call hcall hdepth => ?_⟩
    · rw [blocked_of_agree, Plan.result_record]
    · exact Plan.target_eq_zero_of_mem_calls _ _ m k n s a b hcall hdepth
  · intro range settings s s' m k n a b
    have hsame := blocked_sameAnswer (Bounded.zeroAddComm range) settings s s' a b
    exact ⟨hsame, hsame.faults_iff⟩

/-- A row by a column of numbers of 64 bits, with a forked inner cut, in both orders. -/
theorem blocked_schedule_independent_row_by_column :
    Scalar.ZeroAddComm (Bounded .signed64) ∧
      Checked.SameAnswer
        (blocked ⟨1, 1⟩ .inOrder (⟨1, 2, .replicate 1 2 Scalar.one⟩ : Sized (Bounded .signed64))
          ⟨2, 1, .replicate 2 1 Scalar.one⟩).result
        (blocked ⟨1, 1⟩ (fun _ => .second) ⟨1, 2, .replicate 1 2 Scalar.one⟩
          ⟨2, 1, .replicate 2 1 Scalar.one⟩).result := by
  have hcomm := Bounded.zeroAddComm .signed64
  exact ⟨hcomm, (blocked_schedule_independent.1 hcomm ⟨1, 1⟩ .inOrder (fun _ => .second) _ _).1⟩

end Product

end TensorMechanics
