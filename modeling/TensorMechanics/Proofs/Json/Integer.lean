import Mathlib
import TensorMechanics.Proofs.Json.List

/-!
# Proofs: written integers are read back

An integer is written as its decimal digits behind its sign. Reading splits the digits off, refuses a
leading zero, and absorbs them into a significand of 64 bits. An integer of at most 64 bits, signed if it
is negative, is absorbed completely and has no leading zero, so it is read back.
-/

namespace TensorMechanics.Json

namespace Numeral

/-! ## Digits -/

theorem isDigit_of_mem_toDigits (n : Nat) : ∀ c ∈ Nat.toDigits 10 n, c.isDigit := fun _ hc =>
  Nat.isDigit_of_mem_toDigits (by decide) (by decide) hc

theorem digits_append {ds : List Char} (hds : ∀ d ∈ ds, d.isDigit) {c : Char} (hc : c.isDigit = false)
    (rest : List Char) : digits (ds ++ c :: rest) = .ok (ds.map digitValue, c :: rest) := by
  rw [digits, List.takeWhile_append_of_pos hds, List.dropWhile_append_of_pos hds]
  simp [hc]

theorem le_ofDigitChars (cs : List Char) (n : Nat) : n ≤ Nat.ofDigitChars 10 cs n := by
  rw [Nat.ofDigitChars_eq_ofDigitChars_zero]
  have := Nat.le_mul_of_pos_left n (Nat.pow_pos (n := cs.length) (show 0 < 10 by decide))
  omega

/-- Digits whose number fits a word are absorbed completely. -/
theorem absorb_map_digitValue {cs : List Char} {n : Nat} (h : Nat.ofDigitChars 10 cs n < Word.limit) :
    absorb n (cs.map digitValue) = (Nat.ofDigitChars 10 cs n, []) := by
  induction cs generalizing n with
  | nil => rfl
  | cons c cs ih =>
    rw [Nat.ofDigitChars_cons, Nat.mul_comm] at h ⊢
    have hfits : n * 10 + digitValue c < Word.limit := (le_ofDigitChars cs _).trans_lt h
    rw [List.map_cons, absorb, if_pos hfits]
    exact ih h

/-- The first of several digits is not zero. -/
theorem exists_toDigits_eq_cons (n : Nat) :
    ∃ c cs, Nat.toDigits 10 n = c :: cs ∧ (0 < n → digitValue c ≠ 0) ∧ (n = 0 → cs = []) := by
  induction n using Nat.base_induction 10 (by decide) with
  | single m hm =>
    refine ⟨m.digitChar, [], Nat.toDigits_of_lt_base hm, fun hpos => ?_, fun _ => rfl⟩
    have hvalue : digitValue m.digitChar = m := Nat.toNat_digitChar_sub_48_of_lt_ten hm
    rw [hvalue]
    exact hpos.ne'
  | digit m k hk hm ih =>
    obtain ⟨c, cs, hcs, hfirst, -⟩ := ih
    refine ⟨c, cs ++ Nat.toDigits 10 k, ?_, fun _ => hfirst hm, fun hzero => by omega⟩
    rw [← Nat.toDigits_append_toDigits (by decide) hm hk, hcs, List.cons_append]

theorem toList_repr_negSucc (m : Nat) :
    (Int.negSucc m).repr.toList = '-' :: Nat.toDigits 10 (m + 1) := by
  rw [Int.repr, String.toList_append, Nat.toList_repr]
  rfl

/-! ## Numerals -/

theorem unsigned_toDigits (negative : Bool) {n : Nat} (hn : n < Word.limit) {c : Char}
    (hc : c = ',' ∨ c = ']') (rest : List Char) :
    unsigned negative (Nat.toDigits 10 n ++ c :: rest) = .ok (whole negative n, c :: rest) := by
  have hdigit : c.isDigit = false := by
    rcases hc with rfl | rfl <;> decide
  have hdigits := digits_append (isDigit_of_mem_toDigits n) hdigit rest
  have habsorb : absorb 0 ((Nat.toDigits 10 n).map digitValue) = (n, []) := by
    rw [absorb_map_digitValue (by rwa [Nat.ofDigitChars_ten_toDigits]), Nat.ofDigitChars_ten_toDigits]
  obtain ⟨v, vs, hvs, hfirst, hzero⟩ := exists_toDigits_eq_cons n
  rw [hvs] at hdigits habsorb ⊢
  rw [List.map_cons] at hdigits habsorb
  simp only [unsigned, hdigits, bind, Except.bind]
  split
  next heq _ => cases heq
  next heq _ => cases heq
  next heq =>
    -- a leading zero and another digit
    obtain ⟨hv, hvs⟩ := List.cons.inj heq
    rcases Nat.eq_zero_or_pos n with hn | hn
    · rw [hzero hn] at hvs
      cases hvs
    · exact absurd hv (hfirst hn)
  next =>
    rw [habsorb]
    rcases hc with rfl | rfl <;> rfl

theorem read_toDigits {n : Nat} (hn : n < Word.limit) {c : Char} (hc : c = ',' ∨ c = ']')
    (rest : List Char) :
    read (Nat.toDigits 10 n ++ c :: rest) = .ok (.integer n, c :: rest) := by
  have hdigit := isDigit_of_mem_toDigits n
  have hunsigned := unsigned_toDigits false hn hc rest
  obtain ⟨v, vs, hvs, -, -⟩ := exists_toDigits_eq_cons n
  rw [hvs] at hdigit hunsigned ⊢
  rw [read]
  · exact hunsigned
  · intro tail heq
    obtain ⟨rfl, -⟩ := List.cons.inj heq
    exact absurd (hdigit '-' List.mem_cons_self) (by decide)

theorem read_toString {n : Int} (hlo : -2 ^ 63 ≤ n) (hhi : n < 2 ^ 64) {c : Char}
    (hc : c = ',' ∨ c = ']') (rest : List Char) :
    read ((toString n).toList ++ c :: rest) = .ok (.integer n, c :: rest) := by
  have hlimit : n.natAbs < Word.limit := by
    rw [Word.limit]
    omega
  rw [Int.toString_eq_repr]
  cases n with
  | ofNat m =>
    rw [Int.repr, Nat.toList_repr]
    exact read_toDigits hlimit hc rest
  | negSucc m =>
    have hwhole : whole true (m + 1) = .integer (Int.negSucc m) := by
      have hfits : 0 < m + 1 ∧ m + 1 ≤ Nat.pow 2 63 := by
        show 0 < m + 1 ∧ m + 1 ≤ 2 ^ 63
        omega
      rw [whole, if_pos rfl, if_pos hfits]
      rfl
    rw [← hwhole, toList_repr_negSucc]
    exact unsigned_toDigits true hlimit hc rest

theorem exists_toString_eq_cons (n : Int) :
    ∃ c cs, (toString n).toList = c :: cs ∧ (c = '-' ∨ c.isDigit) := by
  rw [Int.toString_eq_repr]
  cases n with
  | ofNat m =>
    obtain ⟨c, cs, hcs, -, -⟩ := exists_toDigits_eq_cons m
    have hmem : c ∈ Nat.toDigits 10 m := hcs ▸ List.mem_cons_self
    refine ⟨c, cs, ?_, .inr (isDigit_of_mem_toDigits m c hmem)⟩
    rw [Int.repr, Nat.toList_repr, hcs]
  | negSucc m => exact ⟨'-', _, toList_repr_negSucc m, .inl rfl⟩

end Numeral

/-! ## Integers -/

theorem boundedOfNumeral_val {range : IntRange} (typeName : String) (x : Bounded range) :
    boundedOfNumeral range typeName (.integer x.val) = .ok x := by
  have hmember : Bounded.ofInt? range x.val = some x := dif_pos ⟨x.lo_le, x.le_hi⟩
  rw [boundedOfNumeral, hmember]

/-- Integers of a range of at most 64 bits are read back. -/
theorem readsBack_bounded {range : IntRange} [Readable (Bounded range)] (hlo : -2 ^ 63 ≤ range.lo)
    (hhi : range.hi < 2 ^ 64)
    (hof : ∀ x : Bounded range, Readable.ofNumeral (.integer x.val) = .ok x) (x : Bounded range) :
    ReadsBack x := by
  intro c rest hc
  have hread := Numeral.read_toString (hlo.trans x.lo_le) (x.le_hi.trans_lt hhi) hc rest
  have htext : ScalarText.json x = toString x.val := rfl
  obtain ⟨v, vs, hvs, hstart⟩ := Numeral.exists_toString_eq_cons x.val
  rw [htext, hvs, List.cons_append]
  rw [hvs, List.cons_append] at hread
  have hblank : isBlank v = false := by
    rw [Bool.eq_false_iff]
    intro hblank
    simp only [isBlank, Bool.or_eq_true, decide_eq_true_eq] at hblank
    rcases hblank with ((rfl | rfl) | rfl) | rfl <;> exact absurd hstart (by decide)
  have hnumeral : (v = '-' || v.isDigit) = true := by
    rcases hstart with rfl | hdigit
    · rfl
    · rw [hdigit, Bool.or_true]
  simp only [scalar, skipBlanks_cons hblank, hnumeral, if_true, hread, hof, bind, Except.bind]
  rfl

end TensorMechanics.Json
