import Mathlib
import TensorMechanics.Proofs.Json.Integer
import TensorMechanics.Proofs.Tensor.Views
import TensorMechanics.Proofs.Text.Bracketed

/-!
# Proofs: the text of a tensor

A tensor of dimension `d` and rank `r` is written as a list of lists of lists, `r` deep, in which every list
has `d` items. Writing cuts the entries into `d` pieces of equal length and each piece again, so the item
that a list of components leads to is the entry at that index.

Unless entries are written with brackets or commas, the text can be read in one way only: a list opens with
a bracket and an entry does not, and the text of either says where it ends. So the text tells the nested
list, and this holds the entries in order and shows the rank, and the dimension unless the rank is zero.
-/

namespace TensorMechanics

variable {α β : Type} {d e r s : Nat}

/-! ## Nested lists -/

/-- An item, or a list of nested lists. -/
inductive NestedList (α : Type) where
  | item (x : α)
  | list (items : List (NestedList α))

namespace NestedList

/-- Lists are nested to depth `r`, and each has `d` items. -/
def Shaped (d : Nat) : (r : Nat) → NestedList α → Prop
  | 0, item _ => True
  | r + 1, list items => items.length = d ∧ ∀ n ∈ items, n.Shaped d r
  | _, _ => False

/-- The item that a list of components leads to, the first component choosing from the outermost list. -/
def item? : NestedList α → List Nat → Option α
  | item x, [] => some x
  | list items, i :: is => items[i]?.bind fun n => n.item? is
  | _, _ => none

/-- All items, from left to right. -/
def flatten : NestedList α → List α
  | item x => [x]
  | list items => items.flatMap flatten

/-- The text with every list between brackets. -/
def text (render : α → String) : NestedList α → String
  | item x => render x
  | list items => bracketed (items.map (text render))

end NestedList

/-! ## Lists cut into pieces of equal length -/

/-- Cutting what has been joined from pieces of one length gives the pieces back. -/
theorem Tensor.pieces_flatMap {f : β → List α} {m : Nat} (hm : 0 < m) {xs : List β}
    (h : ∀ x ∈ xs, (f x).length = m) {fuel : Nat} (hfuel : xs.length ≤ fuel) :
    pieces m fuel (xs.flatMap f) = xs.map f := by
  induction xs generalizing fuel with
  | nil => cases fuel <;> rfl
  | cons x xs ih =>
    obtain ⟨fuel, rfl⟩ := Nat.exists_eq_add_one.mpr (Nat.zero_lt_of_lt hfuel)
    obtain ⟨hx, hxs⟩ := List.forall_mem_cons.mp h
    have hcut : ∀ ys : List α, ys ≠ [] →
        pieces m (fuel + 1) ys = ys.take m :: pieces m fuel (ys.drop m) := by
      intro ys hys
      cases ys with
      | nil => exact absurd rfl hys
      | cons y ys => rfl
    have hne : f x ++ xs.flatMap f ≠ [] :=
      List.append_ne_nil_of_left_ne_nil (List.length_pos_iff.mp (hx.symm ▸ hm)) _
    rw [List.flatMap_cons, hcut _ hne, List.take_left' hx, List.drop_left' hx,
      ih hxs (Nat.le_of_succ_le_succ hfuel), List.map_cons]

theorem getElem?_flatMap_of_length {f : β → List α} {m : Nat} {xs : List β}
    (h : ∀ x ∈ xs, (f x).length = m) {i j : Nat} (hj : j < m) :
    (xs.flatMap f)[i * m + j]? = xs[i]?.bind fun x => (f x)[j]? := by
  induction xs generalizing i with
  | nil => rfl
  | cons x xs ih =>
    obtain ⟨hx, hxs⟩ := List.forall_mem_cons.mp h
    rw [List.flatMap_cons]
    cases i with
    | zero =>
      rw [Nat.zero_mul, Nat.zero_add, List.getElem?_append_left (hx.symm ▸ hj)]
      rfl
    | succ i =>
      have hposition : (i + 1) * m + j = (f x).length + (i * m + j) := by
        rw [hx, Nat.succ_mul]
        omega
      rw [hposition, List.getElem?_append_right (Nat.le_add_right _ _), Nat.add_sub_cancel_left, ih hxs]
      rfl

namespace NestedList

/-! ## Items in order -/

theorem length_flatten {n : NestedList α} (h : n.Shaped d r) : n.flatten.length = d ^ r := by
  induction r generalizing n with
  | zero =>
    cases n with
    | item x => simp [flatten]
    | list items => exact h.elim
  | succ r ih =>
    cases n with
    | item x => exact h.elim
    | list items =>
      obtain ⟨hlen, hitems⟩ := h
      have hlengths : ∀ l ∈ items.map fun n => n.flatten.length, l = d ^ r :=
        List.forall_mem_map.mpr fun n hn => ih (hitems n hn)
      rw [flatten, List.length_flatMap, List.sum_eq_card_nsmul _ _ hlengths, List.length_map, hlen,
        smul_eq_mul, pow_succ, Nat.mul_comm]

/-- The components of the index at a position lead to the item at this position. -/
theorem item?_digits {n : NestedList α} (h : n.Shaped d r) {p : Nat} (hp : p < d ^ r) :
    n.item? (MultiIndex.digits d r p) = n.flatten[p]? := by
  induction r generalizing n p with
  | zero =>
    obtain rfl : p = 0 := by simpa using hp
    cases n with
    | item x => simp [flatten, item?, MultiIndex.digits]
    | list items => exact h.elim
  | succ r ih =>
    cases n with
    | item x => exact h.elim
    | list items =>
      obtain ⟨-, hitems⟩ := h
      have hrest : p % d ^ r < d ^ r := Nat.mod_lt p (Nat.pow_pos (MultiIndex.base_pos hp))
      have hposition := getElem?_flatMap_of_length (fun n hn => length_flatten (hitems n hn))
        (i := p / d ^ r) hrest
      rw [Nat.div_add_mod'] at hposition
      rw [MultiIndex.digits_succ hp, item?, flatten, hposition]
      exact Option.bind_congr fun n hn => ih (hitems n (List.mem_of_getElem? hn)) hrest

/-- Every list of `d ^ r` items is that of a nested list. -/
theorem exists_flatten_eq {xs : List α} (h : xs.length = d ^ r) :
    ∃ n : NestedList α, n.Shaped d r ∧ n.flatten = xs := by
  induction r generalizing xs with
  | zero =>
    obtain ⟨x, rfl⟩ := List.length_eq_one_iff.mp h
    exact ⟨item x, trivial, by rw [flatten]⟩
  | succ r ih =>
    have hitems : ∀ (count : Nat) (xs : List α), xs.length = count * d ^ r →
        ∃ items : List (NestedList α), items.length = count ∧ (∀ n ∈ items, n.Shaped d r) ∧
          items.flatMap flatten = xs := by
      intro count
      induction count with
      | zero =>
        intro xs hxs
        rw [Nat.zero_mul] at hxs
        exact ⟨[], rfl, List.forall_mem_nil _, (List.eq_nil_of_length_eq_zero hxs).symm⟩
      | succ count ihcount =>
        intro xs hxs
        rw [Nat.succ_mul] at hxs
        have htake : (xs.take (d ^ r)).length = d ^ r := by
          rw [List.length_take]
          omega
        have hdrop : (xs.drop (d ^ r)).length = count * d ^ r := by
          rw [List.length_drop]
          omega
        obtain ⟨n, hn, hfirst⟩ := ih htake
        obtain ⟨items, hlen, hshaped, hrest⟩ := ihcount _ hdrop
        refine ⟨n :: items, congrArg (· + 1) hlen, List.forall_mem_cons.mpr ⟨hn, hshaped⟩, ?_⟩
        rw [List.flatMap_cons, hfirst, hrest, List.take_append_drop]
    obtain ⟨items, hlen, hshaped, hflatten⟩ := hitems d xs (by rw [h, pow_succ, Nat.mul_comm])
    exact ⟨list items, ⟨hlen, hshaped⟩, by rw [flatten, hflatten]⟩

/-- Writing the items of a nested list of positive dimension writes the nested list. -/
theorem nested_flatten (hd : 0 < d) (render : α → String) {n : NestedList α} (h : n.Shaped d r) :
    Tensor.nested render d r n.flatten = .ok (n.text render) := by
  induction r generalizing n with
  | zero =>
    cases n with
    | item x => simp [flatten, text, Tensor.nested]
    | list items => exact h.elim
  | succ r ih =>
    cases n with
    | item x => exact h.elim
    | list items =>
      have hlength := length_flatten h
      obtain ⟨hlen, hitems⟩ := h
      have hpiece : 0 < d ^ r := Nat.pow_pos hd
      have hdiv : Word.div (d ^ (r + 1)) d = .ok (d ^ r) := by
        rw [Word.div, if_neg hd.ne', pow_succ, Nat.mul_div_cancel _ hd]
      have hfuel : items.length ≤ d ^ (r + 1) := by
        rw [hlen]
        exact Nat.le_self_pow (Nat.succ_ne_zero r) d
      have hpieces := Tensor.pieces_flatMap hpiece (fun n hn => length_flatten (hitems n hn)) hfuel
      have htexts : (items.map flatten).mapM (Tensor.nested render d r) =
          .ok (items.map (text render)) := by
        rw [Checked.mapM_eq_ok, List.map_map, List.map_map]
        exact List.map_congr_left fun n hn => ih (hitems n hn)
      rw [Tensor.nested, hlength, hdiv, Checked.ok_bind, if_neg hpiece.ne', flatten, text, hpieces,
        htexts]
      rfl

/-! ## Reading the text in one way -/

/-- A nested list has one rank, and one dimension unless it is an item. -/
theorem shape_unique {n : NestedList α} (h : n.Shaped d r) (hd : 0 < d) (h' : n.Shaped e s) :
    r = s ∧ (1 ≤ r → d = e) := by
  induction r generalizing n s with
  | zero =>
    cases n with
    | item x =>
      cases s with
      | zero => exact ⟨rfl, fun hr => absurd hr (by decide)⟩
      | succ s => exact h'.elim
    | list items => exact h.elim
  | succ r ih =>
    cases n with
    | item x => exact h.elim
    | list items =>
      cases s with
      | zero => exact h'.elim
      | succ s =>
        obtain ⟨hlen, hitems⟩ := h
        obtain ⟨hlen', hitems'⟩ := h'
        obtain ⟨n, hn⟩ := List.exists_mem_of_length_pos (hlen.symm ▸ hd)
        obtain ⟨rfl, -⟩ := ih (hitems n hn) (hitems' n hn)
        exact ⟨rfl, fun _ => hlen.symm.trans hlen'⟩

end NestedList

/-- Numbers with different texts, none of which is empty or has a bracket or a comma. -/
structure Legible (render : α → String) : Prop where
  injective : Function.Injective render
  ne_empty (x : α) : render x ≠ ""
  plain (x : α) : ∀ c ∈ (render x).toList, c ≠ '[' ∧ c ≠ ']' ∧ c ≠ ','

namespace Legible

variable {render : α → String}

theorem exists_cons (h : Legible render) (x : α) :
    ∃ c cs, (render x).toList = c :: cs ∧ c ≠ '[' ∧ c ≠ ']' := by
  cases hx : (render x).toList with
  | nil => exact absurd (String.toList_eq_nil_iff.mp hx) (h.ne_empty x)
  | cons c cs =>
    obtain ⟨hopen, hclose, -⟩ := h.plain x c (hx ▸ List.mem_cons_self)
    exact ⟨c, cs, rfl, hopen, hclose⟩

/-- The text of a number ends where a comma or a bracket is found. -/
theorem delimits (h : Legible render) (x : α) : Delimits render x := by
  -- whatever one text has more than the other would be found behind the other
  have hrest : ∀ {y : α} {more rest rest' : List Char}, EndsItem rest →
      (∀ c ∈ more, c ∈ (render y).toList) → rest = more ++ rest' → more = [] := by
    intro y more rest rest' hends hmore heq
    cases more with
    | nil => rfl
    | cons c cs =>
      obtain ⟨-, hclose, hcomma⟩ := h.plain y c (hmore c List.mem_cons_self)
      rcases hends c (heq ▸ rfl) with hc | hc
      · exact absurd hc hcomma
      · exact absurd hc hclose
  intro y rest rest' hends hends' heq
  rcases List.append_eq_append_iff.mp heq with ⟨more, hy, hrests⟩ | ⟨more, hx, hrests⟩
  · obtain rfl := hrest hends (fun c hc => hy ▸ List.mem_append_right _ hc) hrests
    rw [List.append_nil] at hy
    exact ⟨(h.injective (String.toList_injective hy)).symm, hrests⟩
  · obtain rfl := hrest hends' (fun c hc => hx ▸ List.mem_append_right _ hc) hrests
    rw [List.append_nil] at hx
    exact ⟨h.injective (String.toList_injective hx), hrests.symm⟩

end Legible

namespace NestedList

variable {render : α → String}

theorem toList_text_list (render : α → String) (items : List (NestedList α)) :
    ((list items).text render).toList = '[' :: itemsText (text render) items := by
  rw [text, toList_bracketed]

theorem opensItem_text (h : Legible render) : OpensItem (text render) := by
  intro n
  cases n with
  | item x =>
    obtain ⟨c, cs, hx, -, hclose⟩ := h.exists_cons x
    exact ⟨c, cs, by rw [text, hx], hclose⟩
  | list items => exact ⟨'[', _, toList_text_list render items, by decide⟩

/-- No item is written like a list. -/
theorem text_item_ne_text_list (h : Legible render) (x : α) (items : List (NestedList α))
    (rest rest' : List Char) :
    ((item x).text render).toList ++ rest ≠ ((list items).text render).toList ++ rest' := by
  intro heq
  obtain ⟨c, cs, hx, hopen, -⟩ := h.exists_cons x
  rw [toList_text_list, text, hx] at heq
  exact hopen (List.cons.inj heq).1

/-- The text of a nested list tells the nested list and where it ends. -/
theorem delimits_text (h : Legible render) (n : NestedList α) : Delimits (text render) n := by
  intro m rest rest' hends hends' heq
  match n, m with
  | item x, item y =>
    rw [text, text] at heq
    obtain ⟨rfl, hrest⟩ := h.delimits x hends hends' heq
    exact ⟨rfl, hrest⟩
  | item x, list items => exact absurd heq (text_item_ne_text_list h x items rest rest')
  | list items, item y => exact absurd heq.symm (text_item_ne_text_list h y items rest' rest)
  | list items, list items' =>
    rw [text, text] at heq
    obtain ⟨rfl, hrest⟩ := eq_of_bracketed (opensItem_text h) (fun n _ => delimits_text h n) heq
    exact ⟨rfl, hrest⟩
termination_by n

theorem text_injective (h : Legible render) : Function.Injective (text render) := by
  intro n m heq
  have hnothing : EndsItem [] := fun c hc => by cases hc
  exact (delimits_text h n hnothing hnothing (by rw [heq])).1

end NestedList

/-! ## Integers -/

theorem mem_toString {n : Int} {c : Char} (hc : c ∈ (toString n).toList) : c = '-' ∨ c.isDigit := by
  rw [Int.toString_eq_repr] at hc
  cases n with
  | ofNat m =>
    rw [Int.repr, Nat.toList_repr] at hc
    exact .inr (Json.Numeral.isDigit_of_mem_toDigits m c hc)
  | negSucc m =>
    rw [Json.Numeral.toList_repr_negSucc] at hc
    rcases List.mem_cons.mp hc with rfl | hc
    · exact .inl rfl
    · exact .inr (Json.Numeral.isDigit_of_mem_toDigits (m + 1) c hc)

theorem legible_display_bounded (range : IntRange) :
    Legible (ScalarText.display : Bounded range → String) where
  injective _ _ h := Bounded.ext (Int.repr_injective h)
  ne_empty n h := by
    obtain ⟨c, cs, hcs, -⟩ := Json.Numeral.exists_toString_eq_cons n.val
    have hnil : (toString n.val).toList = [] := String.toList_eq_nil_iff.mpr h
    rw [hcs] at hnil
    cases hnil
  plain n c hc := by
    refine ⟨?_, ?_, ?_⟩
    all_goals
      rintro rfl
      exact absurd (mem_toString hc) (by decide)

/-! ## Tensors -/

namespace Tensor

theorem exists_nestedList (hd : 0 < d) (render : α → String) (t : Tensor α d r) :
    ∃ n : NestedList α, n.Shaped d r ∧ n.flatten = t.toList ∧ t.text render = .ok (n.text render) := by
  obtain ⟨n, hn, hflatten⟩ := NestedList.exists_flatten_eq t.length_toList
  refine ⟨n, hn, hflatten, ?_⟩
  rw [text, ← hflatten, NestedList.nested_flatten hd render hn]

/-- Writing a tensor of positive dimension answers with the text of a nested list, as deep as the rank and
with as many items in each list as the dimension, in which the components of an index lead to the entry at
this index. If different entries have different texts, none of them empty or with a bracket or a comma, then
tensors of any dimension and rank with the same text have the same rank, the same dimension unless the rank
is zero, and the same entries. -/
theorem text_faithful (hd : 0 < d) (hlen : d ^ r < Word.limit) (render : α → String)
    (t : Tensor α d r) :
    (∃ n : NestedList α, t.text render = .ok (n.text render) ∧ n.Shaped d r ∧
      ∀ ix : MultiIndex r, ix.InBounds d →
        ∃ x, t.read ix = .ok x ∧ n.item? ix.components = some x) ∧
    (Legible render → ∀ {e s : Nat} (u : Tensor α e s), 0 < e → u.text render = t.text render →
      s = r ∧ (1 ≤ r → e = d) ∧ u.toList = t.toList) := by
  obtain ⟨n, hn, hflatten, htext⟩ := exists_nestedList hd render t
  refine ⟨⟨n, htext, hn, fun ix hix => ?_⟩, fun h e s u he heq => ?_⟩
  · obtain ⟨p, hp, rfl⟩ := hix.exists_ofOffset
    refine ⟨t.entries[p], t.read_ofOffset hlen hp, ?_⟩
    rw [← t.getElem?_toList hp, ← hflatten]
    exact NestedList.item?_digits hn hp
  · obtain ⟨m, hm, hflatten', htext'⟩ := exists_nestedList he render u
    rw [htext, htext'] at heq
    obtain rfl := NestedList.text_injective h (Except.ok.inj heq)
    obtain ⟨hrank, hdim⟩ := NestedList.shape_unique hm he hn
    exact ⟨hrank, fun hr => hdim (hrank ▸ hr), hflatten'.symm.trans hflatten⟩

/-- A square matrix of integers. No other tensor of integers has its text. -/
theorem text_faithful_signed64 :
    0 < 2 ∧ 2 ^ 2 < Word.limit ∧ Legible (ScalarText.display : Bounded .signed64 → String) ∧
      ∃ t : Tensor (Bounded .signed64) 2 2, t.toList.map Bounded.val = [1, -2, 3, 40] ∧
        t.display = .ok "[[1, -2], [3, 40]]" ∧
        ∀ {e s : Nat} (u : Tensor (Bounded .signed64) e s), 0 < e →
          u.display = .ok "[[1, -2], [3, 40]]" → s = 2 ∧ e = 2 ∧ u.toList = t.toList := by
  let t : Tensor (Bounded .signed64) 2 2 := ⟨#v[⟨1, by decide, by decide⟩, ⟨-2, by decide, by decide⟩,
    ⟨3, by decide, by decide⟩, ⟨40, by decide, by decide⟩]⟩
  have hd : 0 < 2 := by decide
  have hlen : 2 ^ 2 < Word.limit := by decide
  have hlegible := legible_display_bounded .signed64
  have htext : t.display = .ok "[[1, -2], [3, 40]]" := by decide +kernel
  obtain ⟨-, hsame⟩ := text_faithful hd hlen ScalarText.display t
  refine ⟨hd, hlen, hlegible, t, rfl, htext, fun {e s} u he hu => ?_⟩
  obtain ⟨hrank, hdim, hentries⟩ := hsame hlegible u he (hu.trans htext.symm)
  exact ⟨hrank, hdim (by decide), hentries⟩

end Tensor

end TensorMechanics
