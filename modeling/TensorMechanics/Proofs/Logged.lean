import TensorMechanics.Logged

/-!
# Proofs: results with a log

What a computation results in does not depend on the events that it reports. The results of computations
on the items of a list are collected exactly if all of them succeed.
-/

namespace TensorMechanics.Logged

variable {ω ε α β γ : Type}

/-- The result of two computations in turn does not depend on their logs. -/
theorem result_bind (x : Logged ω ε α) (f : α → Logged ω ε β) :
    (x >>= f).result = x.result >>= fun a => (f a).result := by
  obtain ⟨log, result⟩ := x
  cases result with
  | ok a => rfl
  | error e => rfl

/-- Nor does it depend on an event that may be reported before. -/
theorem result_ite_report (c : Prop) [Decidable c] (event : ω) (x : Logged ω ε α) :
    (if c then report event >>= fun _ => x else x).result = x.result := by
  split
  · rfl
  · rfl

theorem result_bind_eq_ok {x : Logged ω ε α} {f : α → Logged ω ε β} {y : β} :
    (x >>= f).result = .ok y ↔ ∃ a, x.result = .ok a ∧ (f a).result = .ok y := by
  rw [result_bind]
  cases x.result with
  | ok a =>
    constructor
    · intro h
      exact ⟨a, rfl, h⟩
    · rintro ⟨_, hok, h⟩
      obtain rfl := Except.ok.inj hok
      exact h
  | error e =>
    constructor
    · intro h
      cases h
    · rintro ⟨_, h, _⟩
      cases h

/-- Collecting results succeeds with a list exactly if its items are the results in order. -/
theorem result_traverse_eq_ok {f : α → Logged ω ε β} {xs : List α} {ys : List β} :
    (traverse f xs).result = .ok ys ↔ xs.map (fun x => (f x).result) = ys.map .ok := by
  induction xs generalizing ys with
  | nil => exact ⟨fun h => Except.ok.inj h ▸ rfl, fun h => List.map_eq_nil_iff.mp h.symm ▸ rfl⟩
  | cons x xs ih =>
    rw [traverse, result_bind_eq_ok]
    constructor
    · rintro ⟨y, hy, htail⟩
      obtain ⟨zs, hzs, hcons⟩ := result_bind_eq_ok.mp htail
      obtain rfl : y :: zs = ys := Except.ok.inj hcons
      rw [List.map_cons, List.map_cons, hy, ih.mp hzs]
    · intro h
      obtain ⟨y, zs, rfl, hy, hzs⟩ := List.map_eq_cons_iff.mp h.symm
      exact ⟨y, hy.symm, result_bind_eq_ok.mpr ⟨zs, ih.mpr hzs.symm, rfl⟩⟩

theorem exists_of_mem_traverse {f : α → Logged ω ε β} {xs : List α} {ys : List β} {y : β}
    (h : (traverse f xs).result = .ok ys) (hy : y ∈ ys) : ∃ x ∈ xs, (f x).result = .ok y := by
  have hmem : (Except.ok y : Except ε β) ∈ ys.map .ok := List.mem_map_of_mem hy
  rw [← result_traverse_eq_ok.mp h] at hmem
  exact List.mem_map.mp hmem

/-- Collecting results over a finite range succeeds with one result for each number. -/
theorem result_traverse_finRange_eq_ok {n : Nat} {g : Fin n → α} {f : α → Logged ω ε β} {ys : List β} :
    (traverse f ((List.finRange n).map g)).result = .ok ys ↔
      ∃ y : Fin n → β, ys = (List.finRange n).map y ∧ ∀ a, (f (g a)).result = .ok (y a) := by
  rw [result_traverse_eq_ok, List.map_map]
  constructor
  · intro h
    have hitem : ∀ a, ∃ y, (f (g a)).result = .ok y := by
      intro a
      have hmem : (f (g a)).result ∈ ys.map .ok := h ▸ List.mem_map_of_mem (List.mem_finRange a)
      obtain ⟨y, -, hy⟩ := List.mem_map.mp hmem
      exact ⟨y, hy.symm⟩
    obtain ⟨y, hy⟩ := Classical.skolem.mp hitem
    have hmap : ys.map Except.ok = ((List.finRange n).map y).map (Except.ok : β → Except ε β) := by
      rw [← h, List.map_map]
      exact List.map_congr_left fun a _ => hy a
    exact ⟨y, (List.map_inj_right fun _ _ => Except.ok.inj).mp hmap, hy⟩
  · rintro ⟨y, rfl, hy⟩
    rw [List.map_map]
    exact List.map_congr_left fun a _ => hy a

/-- Items that are mapped before they are collected can as well be mapped afterwards. -/
theorem result_traverse_map {f : α → Logged ω ε β} {g : α → Logged ω ε γ} {h : β → γ} {xs : List α}
    (hfg : ∀ x ∈ xs, (g x).result = (f x).result.map h) :
    (traverse g xs).result = (traverse f xs).result.map (List.map h) := by
  induction xs with
  | nil => rfl
  | cons x xs ih =>
    have hrest := ih fun y hy => hfg y (List.mem_cons_of_mem x hy)
    simp only [traverse, result_bind, hfg x List.mem_cons_self, hrest]
    cases (f x).result with
    | error e => rfl
    | ok y =>
      cases (traverse f xs).result with
      | error e => rfl
      | ok ys => rfl

end TensorMechanics.Logged
