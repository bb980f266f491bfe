import Mathlib
import TensorMechanics.Json.Values
import TensorMechanics.Proofs.Text.Bracketed

/-!
# Proofs: written lists are read back

A list is written with a comma between its items, and read item by item: each item is followed by a comma
or by the closing bracket. So a list is read back as soon as each of its items is read back in front of
these two characters. That is asked of the items of a list only, since floating-point numbers without a
finite value are not read back.
-/

namespace TensorMechanics.Json

open Reader

variable {α : Type}

/-! ## Writing -/

section Writing

variable [ScalarText α]

/-- The text of the items behind the first one. -/
def laterItems (xs : List α) : List Char := xs.flatMap fun x => ',' :: (ScalarText.json x).toList

theorem length_le_length_laterItems (xs : List α) : xs.length ≤ (laterItems xs).length := by
  induction xs with
  | nil => exact Nat.zero_le _
  | cons x xs ih =>
    rw [laterItems, List.flatMap_cons, List.length_append, List.length_cons, List.length_cons,
      ← laterItems]
    omega

theorem toList_intercalate_json (x : α) (xs : List α) :
    (",".intercalate ((x :: xs).map ScalarText.json)).toList =
      (ScalarText.json x).toList ++ laterItems xs := by
  rw [List.map_cons, toList_intercalate_cons, List.flatMap_map]
  simp [laterItems]

end Writing

/-! ## Reading -/

theorem skipBlanks_cons {c : Char} (hc : isBlank c = false) (cs : List Char) :
    skipBlanks (c :: cs) = c :: cs :=
  List.dropWhile_cons_of_neg (by simp [hc])

theorem skipBlanks_skipBlanks (cs : List Char) : skipBlanks (skipBlanks cs) = skipBlanks cs := by
  rw [skipBlanks, skipBlanks, List.dropWhile_idempotent]

theorem bind_ne_ok {β γ : Type} {x : Except ReadError β} {f : β → Except ReadError γ} {y : γ}
    (hf : ∀ a, f a ≠ .ok y) : (x >>= f) ≠ .ok y := by
  cases x with
  | ok a => exact hf a
  | error e =>
    intro h
    cases h

/-- A value of another kind than expected is never read. -/
theorem mismatched_ne_ok {β : Type} (expected : String) (cs : List Char) (y : β) :
    mismatched expected cs ≠ .ok y := by
  have hfound : ∀ what : Found, (Except.error (.mismatch what expected) : Except ReadError β) ≠ .ok y :=
    fun _ h => by cases h
  unfold mismatched
  split
  · exact bind_ne_ok fun _ => hfound _
  · exact bind_ne_ok fun _ => hfound _
  · exact bind_ne_ok fun _ => hfound _
  · exact bind_ne_ok fun _ => hfound _
  · exact hfound _
  · exact hfound _
  · split
    · exact bind_ne_ok fun _ => hfound _
    · intro h
      cases h
  · intro h
    cases h

theorem whole_eq_ok {β : Type} {reader : Reader β} {text : String} {y : β}
    (h : whole reader text = .ok y) :
    ∃ rest, reader text.toList = .ok (y, rest) ∧ (skipBlanks rest).isEmpty = true := by
  cases hread : reader text.toList with
  | error e => simp [whole, hread, bind, Except.bind] at h
  | ok answer =>
    obtain ⟨x, rest⟩ := answer
    simp only [whole, hread, bind, Except.bind] at h
    split at h
    next hblank => exact ⟨rest, Except.ok.inj h ▸ rfl, hblank⟩
    next => cases h

section Reading

variable [Readable α]

theorem scalar_skipBlanks (cs : List Char) : scalar α (skipBlanks cs) = scalar α cs := by
  simp only [scalar, skipBlanks_skipBlanks]

theorem starts_of_scalar {cs rest : List Char} {x : α} (h : scalar α cs = .ok (x, rest)) :
    ∃ c tail, skipBlanks cs = c :: tail ∧ c ≠ ',' ∧ c ≠ ']' := by
  rw [scalar] at h
  split at h
  next => cases h
  next c tail hcs =>
    refine ⟨c, tail, hcs, ?_⟩
    split at h
    next hc =>
      constructor
      · rintro rfl
        exact absurd hc (by decide)
      · rintro rfl
        exact absurd hc (by decide)
    next => exact absurd h (mismatched_ne_ok _ _ _)

theorem nextItem?_of_scalar {cs rest : List Char} {x : α} (h : scalar α cs = .ok (x, rest)) :
    nextItem? true cs = .ok (some (skipBlanks cs)) ∧
      nextItem? false (',' :: cs) = .ok (some (skipBlanks cs)) := by
  obtain ⟨c, tail, hcs, hcomma, hbracket⟩ := starts_of_scalar h
  have hskip : skipBlanks (',' :: cs) = ',' :: cs := skipBlanks_cons (by decide) cs
  constructor
  · rw [nextItem?, hcs]
    split
    next heq => cases heq
    next heq => exact absurd (List.cons.inj heq).1 hbracket
    next heq => exact absurd (List.cons.inj heq).1 hcomma
    next => rfl
  · simp only [nextItem?, hskip, hcs, Bool.false_eq_true, if_false]
    split
    next heq => cases heq
    next heq => exact absurd (List.cons.inj heq).1 hbracket
    next => rfl

theorem itemsFrom_step {fuel : Nat} {first : Bool} {cs cs' rest rest' : List Char} {x : α} {xs : List α}
    (hnext : nextItem? first cs = .ok (some (skipBlanks cs'))) (hx : scalar α cs' = .ok (x, rest))
    (hxs : itemsFrom (scalar α) fuel false rest = .ok (xs, rest')) :
    itemsFrom (scalar α) (fuel + 1) first cs = .ok (x :: xs, rest') := by
  have hitem : scalar α (skipBlanks cs') = .ok (x, rest) := (scalar_skipBlanks cs').trans hx
  simp only [itemsFrom, hnext, bind, Except.bind, hitem, hxs, pure, Except.pure]

/-- Reading a tensor is reading a list of numbers and making a tensor of it. -/
theorem whole_tensor {d r : Nat} {text : String} {xs : List α}
    (h : whole (list (scalar α)) text = .ok xs) :
    whole (tensor α d r) text = (Tensor.ofList d r xs).mapError .shape := by
  obtain ⟨rest, hread, hblank⟩ := whole_eq_ok h
  have htensor : tensor α d r text.toList =
      (Tensor.ofList d r xs).mapError .shape >>= fun t => .ok (t, rest) := Tensor.run_reader_of_ok hread
  rw [whole, htensor]
  cases Tensor.ofList d r xs with
  | error e => rfl
  | ok t => exact if_pos hblank

end Reading

/-! ## Reading back -/

variable [Readable α] [ScalarText α]

/-- A number that is read as it was written wherever an item of a list ends. -/
def ReadsBack (x : α) : Prop :=
  ∀ c rest, c = ',' ∨ c = ']' →
    scalar α ((ScalarText.json x).toList ++ c :: rest) = .ok (x, c :: rest)

/-- An item is read in front of what the list goes on with. -/
theorem ReadsBack.scalar_laterItems {x : α} (h : ReadsBack x) (xs : List α) (rest : List Char) :
    scalar α ((ScalarText.json x).toList ++ (laterItems xs ++ ']' :: rest)) =
      .ok (x, laterItems xs ++ ']' :: rest) := by
  cases xs with
  | nil => exact h ']' rest (.inr rfl)
  | cons y ys => exact h ',' _ (.inl rfl)

theorem itemsFrom_laterItems {xs : List α} (h : ∀ x ∈ xs, ReadsBack x) {fuel : Nat}
    (hfuel : xs.length < fuel) (rest : List Char) :
    itemsFrom (scalar α) fuel false (laterItems xs ++ ']' :: rest) = .ok (xs, ']' :: rest) := by
  induction xs generalizing fuel with
  | nil =>
    obtain ⟨fuel, rfl⟩ := Nat.exists_eq_add_one.mpr hfuel
    rfl
  | cons x xs ih =>
    obtain ⟨fuel, rfl⟩ := Nat.exists_eq_add_one.mpr (Nat.zero_lt_of_lt hfuel)
    have hrest := ih (fun y hy => h y (List.mem_cons_of_mem x hy)) (Nat.lt_of_succ_lt_succ hfuel)
    have hx := (h x List.mem_cons_self).scalar_laterItems xs rest
    have hcs : laterItems (x :: xs) ++ ']' :: rest =
        ',' :: ((ScalarText.json x).toList ++ (laterItems xs ++ ']' :: rest)) := by
      simp [laterItems]
    rw [hcs]
    exact itemsFrom_step (nextItem?_of_scalar hx).2 hx hrest

/-- A list of numbers that are read back is read back, up to the end of its text. -/
theorem list_listText {xs : List α} (h : ∀ x ∈ xs, ReadsBack x) :
    list (scalar α) (listText xs).toList = .ok (xs, []) := by
  have hitems : ∃ items, (listText xs).toList = '[' :: items ∧
      itemsFrom (scalar α) (items.length + 1) true items = .ok (xs, [']']) := by
    cases xs with
    | nil => exact ⟨[']'], by simp [listText], rfl⟩
    | cons x xs =>
      refine ⟨(ScalarText.json x).toList ++ (laterItems xs ++ [']']), ?_, ?_⟩
      · rw [listText, String.toList_append, String.toList_append, toList_intercalate_json]
        simp
      · have hx := (h x List.mem_cons_self).scalar_laterItems xs []
        -- every item has a comma, so the length of the text is fuel enough
        have hlength := length_le_length_laterItems xs
        refine itemsFrom_step (nextItem?_of_scalar hx).1 hx (itemsFrom_laterItems ?_ ?_ [])
        · exact fun y hy => h y (List.mem_cons_of_mem x hy)
        · simp only [List.length_append, List.length_cons]
          omega
  obtain ⟨items, htext, hread⟩ := hitems
  have hbracket : skipBlanks ('[' :: items) = '[' :: items := skipBlanks_cons (by decide) items
  rw [htext]
  simp only [list, hbracket, hread, bind, Except.bind, pure, Except.pure]
  rfl

theorem whole_list_listText {xs : List α} (h : ∀ x ∈ xs, ReadsBack x) :
    whole (list (scalar α)) (listText xs) = .ok xs := by
  rw [whole, list_listText h]
  rfl

end TensorMechanics.Json
