import TensorMechanics.Fault

/-!
# Proofs: checked computations

How a computation that may fault answers. A bind answers if both of its parts do, a fold answers if
all of its steps do, and a fault of either is the fault of the whole.
-/

namespace TensorMechanics.Checked

variable {α β : Type}

@[simp] theorem ok_bind (x : α) (f : α → Checked β) : (Except.ok x >>= f) = f x := rfl

@[simp] theorem error_bind (fault : Fault) (f : α → Checked β) :
    (Except.error fault >>= f) = .error fault := rfl

@[simp] theorem pure_eq_ok (x : α) : (pure x : Checked α) = .ok x := rfl

/-- A bind answers exactly if the first computation does and the second answers on its result. -/
theorem bind_eq_ok {x : Checked α} {f : α → Checked β} {y : β} :
    (x >>= f) = .ok y ↔ ∃ a, x = .ok a ∧ f a = .ok y := by
  cases x with
  | ok a => simp
  | error fault => simp

/-- Applying a function to the result answers exactly if the computation does. -/
theorem map_eq_ok {f : α → β} {x : Checked α} {y : β} :
    f <$> x = .ok y ↔ ∃ a, x = .ok a ∧ f a = y := by
  rw [← bind_pure_comp, bind_eq_ok]
  simp only [pure_eq_ok, Except.ok.injEq]

/-- Two computations in turn, then a third on their results: all answer if the third one answers on
what is known of the results. -/
theorem exists_bind₂ {γ : Type} {x : Checked α} {y : Checked β} {f : α → β → Checked γ}
    {P : α → Prop} {Q : β → Prop} {R : γ → Prop} (hx : ∃ a, x = .ok a ∧ P a)
    (hy : ∃ b, y = .ok b ∧ Q b) (hf : ∀ a b, P a → Q b → ∃ c, f a b = .ok c ∧ R c) :
    ∃ c, (x >>= fun a => y >>= fun b => f a b) = .ok c ∧ R c := by
  obtain ⟨a, rfl, ha⟩ := hx
  obtain ⟨b, rfl, hb⟩ := hy
  exact hf a b ha hb

/-- A computation either answers or faults. -/
theorem faults_iff {x : Checked α} : (∃ fault, x = .error fault) ↔ ∀ y, x ≠ .ok y := by
  cases x with
  | ok a => simp
  | error fault => simp

/-- Steps that agree on every item of a list make the same fold. -/
theorem foldlM_congr {f g : β → α → Checked β} {xs : List α}
    (h : ∀ x ∈ xs, ∀ acc, f acc x = g acc x) (init : β) : xs.foldlM f init = xs.foldlM g init := by
  induction xs generalizing init with
  | nil => rfl
  | cons x xs ih =>
    rw [List.foldlM_cons, List.foldlM_cons, h x List.mem_cons_self init]
    exact congrArg _ (funext fun acc => ih (fun y hy => h y (List.mem_cons_of_mem x hy)) acc)

/-- A fold over lists one after the other is a fold of folds. -/
theorem foldlM_flatMap {γ : Type} (f : β → γ → Checked β) (g : α → List γ) (xs : List α) (init : β) :
    (xs.flatMap g).foldlM f init = xs.foldlM (fun acc x => (g x).foldlM f acc) init := by
  induction xs generalizing init with
  | nil => rfl
  | cons x xs ih =>
    rw [List.flatMap_cons, List.foldlM_append, List.foldlM_cons]
    exact congrArg _ (funext ih)

/-- A fold answers if every step does. -/
theorem exists_foldlM_eq_ok {f : β → α → Checked β} {xs : List α}
    (h : ∀ x ∈ xs, ∀ acc, ∃ y, f acc x = .ok y) (init : β) : ∃ y, xs.foldlM f init = .ok y := by
  induction xs generalizing init with
  | nil => exact ⟨init, rfl⟩
  | cons x xs ih =>
    obtain ⟨acc, hacc⟩ := h x List.mem_cons_self init
    rw [List.foldlM_cons, hacc, ok_bind]
    exact ih (fun y hy => h y (List.mem_cons_of_mem x hy)) acc

/-- A fold faults at the first item whose step faults, if the steps of the other items answer. -/
theorem foldlM_eq_error {f : β → α → Checked β} {xs : List α} {bad : α → Bool} {x : α}
    {fault : Fault} (hother : ∀ y, bad y = false → ∀ acc, ∃ z, f acc y = .ok z)
    (hfault : ∀ acc, f acc x = .error fault) (hx : xs.find? bad = some x) (init : β) :
    xs.foldlM f init = .error fault := by
  induction xs generalizing init with
  | nil => cases hx
  | cons y ys ih =>
    rw [List.foldlM_cons]
    cases hy : bad y with
    | true =>
      obtain rfl : y = x := by simpa [hy] using hx
      rw [hfault, error_bind]
    | false =>
      obtain ⟨acc, hacc⟩ := hother y hy init
      rw [hacc, ok_bind]
      exact ih (by simpa [hy] using hx) acc

/-- A loop whose steps answer as long as an invariant holds, and keep it for the next step, answers
with a value for which it holds. -/
theorem exists_foldlM_range {f : β → Nat → Checked β} {n : Nat} (inv : Nat → β → Prop)
    (h : ∀ j < n, ∀ acc, inv j acc → ∃ y, f acc j = .ok y ∧ inv (j + 1) y) {init : β}
    (hinit : inv 0 init) : ∃ y, (List.range n).foldlM f init = .ok y ∧ inv n y := by
  induction n with
  | zero => exact ⟨init, rfl, hinit⟩
  | succ n ih =>
    obtain ⟨acc, hacc, hinv⟩ := ih fun j hj => h j (Nat.lt_succ_of_lt hj)
    obtain ⟨y, hy, hinvy⟩ := h n (Nat.lt_succ_self n) acc hinv
    refine ⟨y, ?_, hinvy⟩
    rw [List.range_succ, List.foldlM_append, hacc, ok_bind, List.foldlM_cons, hy, ok_bind]
    rfl

/-- Collecting results answers with a list exactly if its items are the results in order. -/
theorem mapM_eq_ok {f : α → Checked β} {xs : List α} {ys : List β} :
    xs.mapM f = .ok ys ↔ xs.map f = ys.map .ok := by
  induction xs generalizing ys with
  | nil => cases ys <;> simp
  | cons x xs ih =>
    rw [List.mapM_cons, bind_eq_ok]
    constructor
    · rintro ⟨y, hy, hys⟩
      obtain ⟨zs, hzs, hcons⟩ := bind_eq_ok.mp hys
      obtain rfl : y :: zs = ys := by simpa using hcons
      simp [hy, ih.mp hzs]
    · intro h
      cases ys with
      | nil => simp at h
      | cons y ys =>
        obtain ⟨hy, hys⟩ := List.cons.injEq .. |>.mp h
        exact ⟨y, hy, by rw [ih.mpr hys]; rfl⟩

/-- Collecting results answers exactly if every computation does. -/
theorem exists_mapM_eq_ok {f : α → Checked β} {xs : List α} :
    (∃ ys, xs.mapM f = .ok ys) ↔ ∀ x ∈ xs, ∃ y, f x = .ok y := by
  induction xs with
  | nil => simp
  | cons x xs ih =>
    rw [List.mapM_cons, List.forall_mem_cons, ← ih]
    constructor
    · rintro ⟨ys, hys⟩
      obtain ⟨y, hy, hrest⟩ := bind_eq_ok.mp hys
      obtain ⟨zs, hzs, -⟩ := bind_eq_ok.mp hrest
      exact ⟨⟨y, hy⟩, zs, hzs⟩
    · rintro ⟨⟨y, hy⟩, ys, hys⟩
      refine ⟨y :: ys, ?_⟩
      rw [hy, ok_bind, hys]
      rfl

/-- Computing the entries of a vector answers exactly if every entry does. -/
theorem ofFnM_eq_ok {n : Nat} {f : Fin n → Checked α} {v : Vector α n} :
    Vector.ofFnM f = .ok v ↔ ∀ p (hp : p < n), f ⟨p, hp⟩ = .ok v[p] := by
  induction n with
  | zero =>
    constructor
    · intro _ p hp
      exact absurd hp (Nat.not_lt_zero p)
    · intro _
      have hv : v = #v[] := Vector.eq_empty
      rw [hv, Vector.ofFnM_zero]
      rfl
  | succ n ih =>
    rw [Vector.ofFnM_succ, bind_eq_ok]
    constructor
    · rintro ⟨w, hw, hlast⟩
      obtain ⟨x, hx, hpush⟩ := bind_eq_ok.mp hlast
      obtain rfl : w.push x = v := by simpa using hpush
      intro p hp
      rcases Nat.lt_succ_iff_lt_or_eq.mp hp with hlt | rfl
      · rw [Vector.getElem_push_lt hlt]
        exact ih.mp hw p hlt
      · rw [Vector.getElem_push_eq]
        exact hx
    · intro h
      refine ⟨v.pop, ih.mpr fun p hp => ?_, ?_⟩
      · rw [Vector.getElem_pop]
        exact h p (Nat.lt_succ_of_lt hp)
      · have hlast := h n (Nat.lt_succ_self n)
        have hpush : v.pop.push v[n] = v := Vector.push_pop_back v
        show f ⟨n, _⟩ >>= _ = _
        rw [hlast, ok_bind, hpush, pure_eq_ok]

/-- A fault of the computation of a vector is the fault of an entry. -/
theorem exists_of_ofFnM_eq_error {n : Nat} {f : Fin n → Checked α} {fault : Fault}
    (h : Vector.ofFnM f = .error fault) : ∃ k, f k = .error fault := by
  induction n with
  | zero =>
    rw [Vector.ofFnM_zero] at h
    cases h
  | succ n ih =>
    rw [Vector.ofFnM_succ] at h
    cases hfront : Vector.ofFnM fun k => f k.castSucc with
    | error _ =>
      rw [hfront, error_bind] at h
      obtain rfl := Except.error.inj h
      obtain ⟨k, hk⟩ := ih hfront
      exact ⟨k.castSucc, hk⟩
    | ok v =>
      rw [hfront, ok_bind] at h
      cases hlast : f (Fin.last n) with
      | error _ =>
        rw [hlast, error_bind] at h
        obtain rfl := Except.error.inj h
        exact ⟨Fin.last n, hlast⟩
      | ok x =>
        rw [hlast] at h
        cases h

/-! ## Computations that answer alike -/

/-- Two computations answer alike: neither answers without the other, and then with the same value.
If they fault, the faults may differ. -/
def SameAnswer (x y : Checked α) : Prop := ∀ a, x = .ok a ↔ y = .ok a

namespace SameAnswer

variable {x y : Checked α}

theorem of_eq (h : x = y) : SameAnswer x y := fun _ => by rw [h]

theorem faults_iff (h : SameAnswer x y) :
    (∃ fault, x = .error fault) ↔ ∃ fault, y = .error fault := by
  rw [Checked.faults_iff, Checked.faults_iff]
  exact forall_congr' fun a => not_congr (h a)

theorem bind {f g : α → Checked β} (h : SameAnswer x y) (hfg : ∀ a, SameAnswer (f a) (g a)) :
    SameAnswer (x >>= f) (y >>= g) := by
  intro b
  rw [bind_eq_ok, bind_eq_ok]
  exact exists_congr fun a => and_congr (h a) (hfg a b)

theorem map (f : α → β) (h : SameAnswer x y) : SameAnswer (x.map f) (y.map f) := by
  have hbind : ∀ z : Checked α, z.map f = z >>= fun a => .ok (f a) := by
    intro z
    cases z with
    | ok a => rfl
    | error fault => rfl
  rw [hbind x, hbind y]
  exact h.bind fun a => of_eq rfl

end SameAnswer

end TensorMechanics.Checked
