import Mathlib
import TensorMechanics.Fault

/-!
# Proofs: bracketed lists are read in one way

Texts that are written one after the other can be told apart if each of them says where it ends. Behind an
item of a bracketed list there is a comma or the closing bracket. If the texts of the items can be told
apart in front of these two characters, and none of them starts with a closing bracket, then so can the
bracketed lists of items.
-/

namespace TensorMechanics

variable {β : Type}

/-- What may stand behind an item of a list: a comma, the closing bracket, or nothing. -/
def EndsItem (rest : List Char) : Prop := ∀ c ∈ rest.head?, c = ',' ∨ c = ']'

/-- In front of what may stand behind an item, no other item has the text of `x`, and it is seen where the
text ends. -/
def Delimits (text : β → String) (x : β) : Prop :=
  ∀ ⦃y : β⦄ ⦃rest rest' : List Char⦄, EndsItem rest → EndsItem rest' →
    (text x).toList ++ rest = (text y).toList ++ rest' → x = y ∧ rest = rest'

/-- No text is empty or starts with a closing bracket. -/
def OpensItem (text : β → String) : Prop := ∀ x, ∃ c cs, (text x).toList = c :: cs ∧ c ≠ ']'

/-! ## The items of a list -/

/-- The text of the items behind the first one, up to the closing bracket. -/
def laterItemsText (text : β → String) (xs : List β) : List Char :=
  xs.flatMap (fun x => ',' :: ' ' :: (text x).toList) ++ [']']

/-- The text of all items, up to the closing bracket. -/
def itemsText (text : β → String) : List β → List Char
  | [] => [']']
  | x :: xs => (text x).toList ++ laterItemsText text xs

theorem laterItemsText_cons (text : β → String) (x : β) (xs : List β) :
    laterItemsText text (x :: xs) = ',' :: ' ' :: itemsText text (x :: xs) := by
  simp [laterItemsText, itemsText]

theorem toList_intercalate_cons (separator x : String) (xs : List String) :
    (separator.intercalate (x :: xs)).toList =
      x.toList ++ xs.flatMap fun y => separator.toList ++ y.toList := by
  induction xs generalizing x with
  | nil => simp
  | cons y ys ih =>
    rw [String.intercalate_cons_cons, String.toList_append, String.toList_append, ih y,
      List.flatMap_cons, List.append_assoc, List.append_assoc]

theorem toList_bracketed (text : β → String) (xs : List β) :
    (bracketed (xs.map text)).toList = '[' :: itemsText text xs := by
  cases xs with
  | nil => simp [bracketed, itemsText]
  | cons x xs =>
    rw [bracketed, List.map_cons, String.toList_append, String.toList_append,
      toList_intercalate_cons, List.flatMap_map]
    simp [itemsText, laterItemsText]

theorem endsItem_laterItemsText (text : β → String) (xs : List β) (rest : List Char) :
    EndsItem (laterItemsText text xs ++ rest) := by
  intro c hc
  cases xs with
  | nil =>
    obtain rfl : ']' = c := Option.some.inj hc
    exact .inr rfl
  | cons x xs =>
    obtain rfl : ',' = c := Option.some.inj hc
    exact .inl rfl

/-! ## Telling lists apart -/

section Lists

variable {text : β → String} {xs ys : List β} {rest rest' : List Char}

theorem eq_of_laterItemsText (h : ∀ x ∈ xs, Delimits text x)
    (heq : laterItemsText text xs ++ rest = laterItemsText text ys ++ rest') :
    xs = ys ∧ rest = rest' := by
  induction xs generalizing ys with
  | nil =>
    cases ys with
    | nil => exact ⟨rfl, List.append_cancel_left heq⟩
    | cons y ys =>
      have hhead : ']' = ',' := (List.cons.inj heq).1
      exact absurd hhead (by decide)
  | cons x xs ih =>
    cases ys with
    | nil =>
      have hhead : ',' = ']' := (List.cons.inj heq).1
      exact absurd hhead (by decide)
    | cons y ys =>
      obtain ⟨hx, hxs⟩ := List.forall_mem_cons.mp h
      simp only [laterItemsText_cons, itemsText, List.cons_append, List.append_assoc,
        List.cons.injEq, true_and] at heq
      obtain ⟨rfl, hlater⟩ := hx (endsItem_laterItemsText text xs rest)
        (endsItem_laterItemsText text ys rest') heq
      obtain ⟨rfl, hrest⟩ := ih hxs hlater
      exact ⟨rfl, hrest⟩

/-- An empty list closes where another one has its first item. -/
theorem itemsText_nil_ne (hopen : OpensItem text) (y : β) (ys : List β) (rest rest' : List Char) :
    itemsText text [] ++ rest ≠ itemsText text (y :: ys) ++ rest' := by
  intro heq
  obtain ⟨c, cs, hc, hne⟩ := hopen y
  simp only [itemsText, hc] at heq
  exact hne (List.cons.inj heq).1.symm

theorem eq_of_itemsText (hopen : OpensItem text) (h : ∀ x ∈ xs, Delimits text x)
    (heq : itemsText text xs ++ rest = itemsText text ys ++ rest') : xs = ys ∧ rest = rest' := by
  cases xs with
  | nil =>
    cases ys with
    | nil => exact ⟨rfl, List.append_cancel_left heq⟩
    | cons y ys => exact absurd heq (itemsText_nil_ne hopen y ys rest rest')
  | cons x xs =>
    cases ys with
    | nil => exact absurd heq.symm (itemsText_nil_ne hopen x xs rest' rest)
    | cons y ys =>
      obtain ⟨hx, hxs⟩ := List.forall_mem_cons.mp h
      simp only [itemsText, List.append_assoc] at heq
      obtain ⟨rfl, hlater⟩ := hx (endsItem_laterItemsText text xs rest)
        (endsItem_laterItemsText text ys rest') heq
      obtain ⟨rfl, hrest⟩ := eq_of_laterItemsText hxs hlater
      exact ⟨rfl, hrest⟩

/-- Bracketed lists of items can be told apart as soon as the items can. -/
theorem eq_of_bracketed (hopen : OpensItem text) (h : ∀ x ∈ xs, Delimits text x)
    (heq : (bracketed (xs.map text)).toList ++ rest = (bracketed (ys.map text)).toList ++ rest') :
    xs = ys ∧ rest = rest' := by
  simp only [toList_bracketed, List.cons_append, List.cons.injEq, true_and] at heq
  exact eq_of_itemsText hopen h heq

end Lists

end TensorMechanics
