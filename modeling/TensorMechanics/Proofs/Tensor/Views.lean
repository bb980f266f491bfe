import Mathlib
import TensorMechanics.Proofs.Expr.Evaluation
import TensorMechanics.Proofs.Json.Integer
import TensorMechanics.Proofs.MultiIndex.Enumeration

/-!
# Proofs: the views of a tensor

The entries of a tensor can be read in the order of the storage, at the index that a position unravels to,
through an expression, through a traversal and from a data file. All of these views have the same order,
and each of them rebuilds the tensor. A list makes a tensor exactly if it has as many items as the tensor
has entries, wherever it comes from. Of a data file it only matters which list is read from it, so what is
said of files holds for every format of lists, and of the format of `Json.listFormat` it remains to be said
which lists are read back.
-/

namespace TensorMechanics.Tensor

open MultiIndex Json Json.Reader

variable {α : Type} {d r : Nat}

theorem getElem?_toList (t : Tensor α d r) {p : Nat} (hp : p < d ^ r) :
    t.toList[p]? = some t.entries[p] := by
  have hp' : p < t.toList.length := hp.trans_eq t.length_toList.symm
  rw [List.getElem?_eq_getElem hp']
  simp [toList]

theorem ofFnM_read (t : Tensor α d r) (hlen : d ^ r < Word.limit) : ofFnM t.read = .ok t := by
  have hentries : (Vector.ofFnM fun p : Fin (Nat.pow d r) => t.read (ofOffset d r p)) = .ok t.entries :=
    Checked.ofFnM_eq_ok.mpr fun p hp => t.read_ofOffset hlen hp
  rw [ofFnM, hentries]
  rfl

section Scalar

variable [Scalar α]

theorem eval_tensor (t : Tensor α d r) (hlen : d ^ r < Word.limit) : (Expr.tensor t).eval = .ok t :=
  Expr.eval_eq_ok.mpr ⟨hlen, fun _ hp => t.read_ofOffset hlen hp⟩

theorem exists_traversal_tensor (t : Tensor α d r) (hlen : d ^ r < Word.limit) {p : Nat}
    (hp : p < d ^ r) : ∃ walk, (Expr.tensor t).traversal = .ok walk ∧
      ((fun walk => (Traversal.next walk).2)^[p] walk).next.1 = .ok (some t.entries[p]) := by
  refine ⟨⟨(Expr.tensor t).evaluate, .full d r⟩, ?_, ?_⟩
  · rw [Expr.traversal, Traversal.start, Walk.start_of_lt hlen]
  · rw [Traversal.next_iterate_next _ (dim_lt_limit hlen), getElem?_inOrder, if_pos hp,
      Option.mapM_some, Expr.evaluate, t.read_ofOffset hlen hp]
    rfl

end Scalar

/-! ## Lists -/

theorem exists_ofList {xs : List α} (h : xs.length = d ^ r) :
    ∃ t : Tensor α d r, ofList d r xs = .ok t ∧ t.toList = xs :=
  ⟨ofLength xs h, dif_pos h, toList_ofLength xs h⟩

theorem ofList_of_length_ne {xs : List α} (h : xs.length ≠ d ^ r) :
    ofList d r xs = .error (.storageLength (d ^ r) xs.length) := dif_neg h

theorem ofListOrFault_eq_mapError (xs : List α) :
    ofListOrFault d r xs = (ofList d r xs).mapError .shape := by
  rw [ofListOrFault]
  cases ofList d r xs with
  | ok t => rfl
  | error e => rfl

/-! ## Data files -/

section Files

variable {σ ε : Type} (format : ListFormat σ ε α)

/-- A file holds a tensor exactly if it holds the list of its entries. -/
theorem run_readTensor_eq_ok {t : Tensor α d r} {content rest : σ} :
    (format.readTensor d r).run content = .ok (t, rest) ↔
      format.read.run content = .ok (t.toList, rest) := by
  cases hread : format.read.run content with
  | error e =>
    rw [ListFormat.readTensor, run_reader, hread]
    simp [bind, Except.bind]
  | ok answer =>
    obtain ⟨xs, rest'⟩ := answer
    rw [ListFormat.readTensor, run_reader_of_ok hread, Except.ok.injEq, Prod.mk.injEq, ← ofList_eq_ok]
    cases ofList d r xs with
    | ok u => simp [Except.mapError, bind, Except.bind]
    | error e => simp [Except.mapError, bind, Except.bind]

theorem run_readTensor_of_length_ne {xs : List α} (h : xs.length ≠ d ^ r) {content rest : σ}
    (hread : format.read.run content = .ok (xs, rest)) :
    (format.readTensor d r).run content =
      .error (format.refuse (.storageLength (d ^ r) xs.length)) := by
  rw [ListFormat.readTensor, run_reader_of_ok hread, ofList_of_length_ne h]
  rfl

end Files

/-! ## All views -/

/-- Where the entries can be counted, the views of a tensor agree at every position: the list of its
entries, the tensor and the expression at the index of the position, the traversal of the expression, and
what is read of its text. Each of them rebuilds the tensor. Conversely a list makes a tensor, as a value or
with a fault or from a data file, exactly if it has one item for each entry, and is then the list of the
entries. Data files may have any format in which the list of the entries is read back. `Json.listFormat` is
one of these formats: there a list is read back if each of its numbers is. -/
theorem views_agree [Scalar α] [Readable α] [ScalarText α] (hlen : d ^ r < Word.limit) :
    (∀ t : Tensor α d r,
      (∀ p (hp : p < d ^ r),
        t.toList[p]? = some t.entries[p] ∧
        (unravel d r p >>= t.read) = .ok t.entries[p] ∧
        (unravel d r p >>= (Expr.tensor t).evaluate) = .ok t.entries[p] ∧
        ∃ walk, (Expr.tensor t).traversal = .ok walk ∧
          ((fun walk => (Traversal.next walk).2)^[p] walk).next.1 = .ok (some t.entries[p])) ∧
      ofListOrFault d r t.toList = .ok t ∧
      (Expr.tensor t).eval = .ok t ∧
      ofFnM t.read = .ok t ∧
      (∀ {σ ε : Type} (format : ListFormat σ ε α),
        (∀ rest, format.read.run (format.write t.toList) = .ok (t.toList, rest) →
          (format.readTensor d r).run (format.writeTensor t) = .ok (t, rest)) ∧
        ∀ content rest, (format.readTensor d r).run content = .ok (t, rest) ↔
          format.read.run content = .ok (t.toList, rest)) ∧
      ((listFormat α).writeTensor t = t.json.toList ∧ (listFormat α).readTensor d r = Json.tensor α d r) ∧
      ((∀ x ∈ t.toList, ReadsBack x) →
        whole (list (scalar α)) t.json = .ok t.toList ∧ whole (Json.tensor α d r) t.json = .ok t)) ∧
    ∀ xs : List α,
      (xs.length = d ^ r → ∃ t : Tensor α d r, t.toList = xs ∧
        ofList d r xs = .ok t ∧ ofListOrFault d r xs = .ok t ∧
        (∀ {σ ε : Type} (format : ListFormat σ ε α) (content rest : σ),
          format.read.run content = .ok (xs, rest) → (format.readTensor d r).run content = .ok (t, rest)) ∧
        ∀ text, whole (list (scalar α)) text = .ok xs → whole (Json.tensor α d r) text = .ok t) ∧
      (xs.length ≠ d ^ r → ∃ e : ShapeError, e = .storageLength (d ^ r) xs.length ∧
        ofList d r xs = .error e ∧
        ofListOrFault d r xs = .error (.shape e) ∧ (Fault.shape e).message = e.message ∧
        (ReadError.shape e).message = e.message ∧
        (∀ {σ ε : Type} (format : ListFormat σ ε α) (content rest : σ),
          format.read.run content = .ok (xs, rest) →
            (format.readTensor d r).run content = .error (format.refuse e)) ∧
        ∀ text, whole (list (scalar α)) text = .ok xs →
          whole (Json.tensor α d r) text = .error (.shape e)) ∧
      ((∀ x ∈ xs, ReadsBack x) →
        (listFormat α).read.run ((listFormat α).write xs) = .ok (xs, []) ∧
        whole (list (scalar α)) (listText xs) = .ok xs) := by
  refine ⟨fun t => ⟨fun p hp => ⟨t.getElem?_toList hp, ?_, ?_, t.exists_traversal_tensor hlen hp⟩,
    ofListOrFault_eq_ok.mpr rfl, t.eval_tensor hlen, t.ofFnM_read hlen, fun format =>
      ⟨fun _ h => (run_readTensor_eq_ok format).mpr h, fun _ _ => run_readTensor_eq_ok format⟩,
    ⟨rfl, rfl⟩, fun hback => ?_⟩, fun xs => ⟨fun h => ?_, fun h => ?_,
      fun hback => ⟨list_listText hback, whole_list_listText hback⟩⟩⟩
  · rw [unravel_of_lt hlen hp, Checked.ok_bind, t.read_ofOffset hlen hp]
  · rw [unravel_of_lt hlen hp, Checked.ok_bind, Expr.evaluate, t.read_ofOffset hlen hp]
  · have hlist : whole (list (scalar α)) t.json = .ok t.toList := whole_list_listText hback
    refine ⟨hlist, ?_⟩
    rw [whole_tensor hlist, ofList_toList]
    rfl
  · obtain ⟨t, ht, rfl⟩ := exists_ofList h
    refine ⟨t, rfl, ht, ofListOrFault_eq_ok.mpr rfl,
      fun format _ _ => (run_readTensor_eq_ok format).mpr, fun text htext => ?_⟩
    rw [whole_tensor htext, ht]
    rfl
  · have hxs := ofList_of_length_ne (d := d) (r := r) h
    refine ⟨_, rfl, hxs, ?_, rfl, rfl, fun format _ _ => run_readTensor_of_length_ne format h,
      fun text htext => ?_⟩
    · rw [ofListOrFault_eq_mapError, hxs]
      rfl
    · rw [whole_tensor htext, hxs]
      rfl

/-- Four integers, and the text of three of them. -/
theorem views_agree_signed64 :
    2 ^ 2 < Word.limit ∧ ∃ t : Tensor (Bounded .signed64) 2 2,
      t.toList.map Bounded.val = [20, -7, 0, 9223372036854775807] ∧
      t.json = "[20,-7,0,9223372036854775807]" ∧ (∀ x ∈ t.toList, ReadsBack x) ∧
      (unravel 2 2 1 >>= t.read) = .ok ⟨-7, by decide, by decide⟩ ∧
      (Expr.tensor t).eval = .ok t ∧
      whole (Json.tensor (Bounded .signed64) 2 2) t.json = .ok t ∧
      ((listFormat (Bounded .signed64)).readTensor 2 2).run t.json.toList = .ok (t, []) ∧
      listText (t.toList.take 3) = "[20,-7,0]" ∧
      whole (Json.tensor (Bounded .signed64) 2 2) (listText (t.toList.take 3)) =
        .error (.shape (.storageLength 4 3)) := by
  let t : Tensor (Bounded .signed64) 2 2 := ⟨#v[⟨20, by decide, by decide⟩, ⟨-7, by decide, by decide⟩,
    ⟨0, by decide, by decide⟩, ⟨9223372036854775807, by decide, by decide⟩]⟩
  have hlen : 2 ^ 2 < Word.limit := by decide
  have hback : ∀ x : Bounded .signed64, ReadsBack x :=
    readsBack_bounded (by decide) (by decide) (boundedOfNumeral_val "i64")
  obtain ⟨hviews, hlists⟩ := views_agree (α := Bounded .signed64) hlen
  obtain ⟨hpositions, -, heval, -, hformat, -, hjson⟩ := hviews t
  obtain ⟨-, hshort, hread⟩ := hlists (t.toList.take 3)
  obtain ⟨e, rfl, -, -, -, -, -, hrejected⟩ := hshort (by decide)
  have hlist := (hlists t.toList).2.2 fun x _ => hback x
  refine ⟨hlen, t, rfl, rfl, fun x _ => hback x, (hpositions 1 (by decide)).2.1, heval,
    (hjson fun x _ => hback x).2, (hformat (listFormat _)).1 [] hlist.1, rfl,
    hrejected _ (hread fun x _ => hback x).2⟩

end TensorMechanics.Tensor
