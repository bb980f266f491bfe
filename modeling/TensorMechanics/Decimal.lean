/-!
# Shortest decimals of binary numbers

A binary floating-point number stands for all reals that round to it. `shortest` finds the decimal
with the fewest digits among these, and of those the nearest to the number. The search is exact: a
finite number is decoded into a significand and a power of two, and every comparison is one of
natural numbers.

The reals that round to a number reach half way to its neighbours, the ends included if the
significand is even. Decimal grids are tried from coarse to fine. If a grid has a point between the
ends, one of the two points next to the number is between them, so only these are tested.
-/

namespace TensorMechanics.Decimal

/-- A binary interchange format. -/
structure Format where
  /-- The bits of the fraction. -/
  fractionBits : Nat
  /-- The bits of the exponent. -/
  exponentBits : Nat

/-- The format of 64 bits. -/
def binary64 : Format := ⟨52, 11⟩

/-- The format of 32 bits. -/
def binary32 : Format := ⟨23, 8⟩

/-- What the bits of a number stand for. -/
inductive Value where
  | nan
  | infinite (negative : Bool)
  /-- The number `significand * 2 ^ exponent`. The lower neighbour of a narrow number is half as far
  away as the upper one. -/
  | finite (negative : Bool) (significand : Nat) (exponent : Int) (narrow : Bool)
  deriving DecidableEq, Repr

/-- Decodes the bits of a number. -/
def Format.decode (f : Format) (bits : Nat) : Value :=
  let fraction := bits % Nat.pow 2 f.fractionBits
  let biased := bits / Nat.pow 2 f.fractionBits % Nat.pow 2 f.exponentBits
  let negative := decide (bits / Nat.pow 2 (f.fractionBits + f.exponentBits) % 2 = 1)
  let least : Int := 2 - Int.ofNat (Nat.pow 2 (f.exponentBits - 1)) - f.fractionBits
  if biased = Nat.pow 2 f.exponentBits - 1 then
    if fraction = 0 then .infinite negative else .nan
  else if biased = 0 then .finite negative fraction least false
  else .finite negative (Nat.pow 2 f.fractionBits + fraction) (least + biased - 1)
    (decide (fraction = 0 ∧ 1 < biased))

/-- The reals that round to a positive number, in quarters of the unit of its significand. -/
structure Interval where
  low : Nat
  center : Nat
  high : Nat
  /-- A quarter of a unit is this power of two. -/
  unit : Int
  /-- The ends belong to the interval. -/
  closed : Bool

/-- The reals that round to a number. -/
def Interval.around (significand : Nat) (exponent : Int) (narrow : Bool) : Interval where
  low := 4 * significand - (if narrow then 1 else 2)
  center := 4 * significand
  high := 4 * significand + 2
  unit := exponent - 2
  closed := significand % 2 = 0

/-- Which of two decimals at equal distance is taken. -/
inductive Tie where
  /-- The greater one. -/
  | up
  /-- The one with an even last digit. -/
  | even
  deriving DecidableEq, Repr

/-- The decimal `digits * 10 ^ exponent`. -/
structure Digits where
  digits : Nat
  exponent : Int
  deriving DecidableEq, Repr

/-- The decimals of the grid with step `10 ^ k` that are tested for an interval: if a neighbour of
the centre is in the interval, the nearest such neighbour. -/
def Interval.onGrid? (v : Interval) (tie : Tie) (k : Int) : Option Nat :=
  let step := Nat.pow 10 k.toNat * Nat.pow 2 (-v.unit).toNat
  let quarter := Nat.pow 2 v.unit.toNat * Nat.pow 10 (-k).toNat
  let floor := v.center * quarter / step
  let inside (c : Nat) : Bool :=
    if v.closed then v.low * quarter ≤ c * step ∧ c * step ≤ v.high * quarter
    else v.low * quarter < c * step ∧ c * step < v.high * quarter
  let doubled := 2 * (v.center * quarter)
  let middle := (2 * floor + 1) * step
  let nearer :=
    if doubled < middle then floor
    else if middle < doubled then floor + 1
    else match tie with
      | .up => floor + 1
      | .even => if floor % 2 = 0 then floor else floor + 1
  match inside floor, inside (floor + 1) with
  | true, true => some nearer
  | true, false => some floor
  | false, true => some (floor + 1)
  | false, false => none

/-- The first hit on the grids from `10 ^ k` down, at most `fuel` many. -/
def Interval.search (v : Interval) (tie : Tie) : (fuel : Nat) → Int → Digits
  | 0, k => ⟨0, k⟩
  | fuel + 1, k =>
    match v.onGrid? tie k with
    | some digits => ⟨digits, k⟩
    | none => v.search tie fuel (k - 1)

/-- An exponent whose power of ten is above the interval. -/
def Interval.ceiling (v : Interval) : Int := (Nat.log2 v.high + 1 + v.unit) * 30103 / 100000 + 1

/-- Drops zeros at the end, at most `fuel` many. -/
def Digits.strip : (fuel : Nat) → Digits → Digits
  | 0, x => x
  | fuel + 1, x =>
    if x.digits ≠ 0 ∧ x.digits % 10 = 0 then strip fuel ⟨x.digits / 10, x.exponent + 1⟩ else x

/-- The shortest decimal of a number. Zero has the digit zero. Numbers of up to 64 bits have at most
17 digits, so a search over 24 grids from above the number finds a hit. -/
def shortest (tie : Tie) (significand : Nat) (exponent : Int) (narrow : Bool) : Digits :=
  if significand = 0 then ⟨0, 0⟩
  else
    let v := Interval.around significand exponent narrow
    (v.search tie 24 v.ceiling).strip 24

/-! ## Notation of decimals -/

/-- How decimals are written. -/
structure Style where
  /-- The least and the greatest exponent of a leading digit that are written positionally. Without
  bounds all are. -/
  positional : Option (Int × Int)
  /-- Positional integers end in `.0`. -/
  pointZero : Bool
  /-- Positive exponents have a sign. -/
  plus : Bool
  tie : Tie
  nan : String
  infinity : String
  negativeInfinity : String

/-- The decimal in positional notation. -/
def Digits.positional (pointZero : Bool) (x : Digits) : String :=
  let ds := (toString x.digits).toList
  if 0 ≤ x.exponent then
    String.ofList (ds ++ List.replicate x.exponent.toNat '0') ++ (if pointZero then ".0" else "")
  else
    let places := (-x.exponent).toNat
    if places < ds.length then
      String.ofList (ds.take (ds.length - places)) ++ "." ++
        String.ofList (ds.drop (ds.length - places))
    else
      "0." ++ String.ofList (List.replicate (places - ds.length) '0' ++ ds)

/-- The exponent of the leading digit. -/
def Digits.leading (x : Digits) : Int := (toString x.digits).length - 1 + x.exponent

/-- The decimal with one digit before the point and an exponent. -/
def Digits.scientific (plus : Bool) (x : Digits) : String :=
  let ds := (toString x.digits).toList
  let mantissa := String.ofList (ds.take 1) ++
    (if ds.length = 1 then "" else "." ++ String.ofList (ds.drop 1))
  mantissa ++ "e" ++ (if plus ∧ 0 ≤ x.leading then "+" else "") ++ toString x.leading

/-- The text of a number. -/
def Style.text (style : Style) : Value → String
  | .nan => style.nan
  | .infinite false => style.infinity
  | .infinite true => style.negativeInfinity
  | .finite negative significand exponent narrow =>
    let x := shortest style.tie significand exponent narrow
    let usePositional : Bool := match style.positional with
      | none => true
      | some (least, greatest) => x.digits = 0 ∨ (least ≤ x.leading ∧ x.leading ≤ greatest)
    (if negative then "-" else "") ++
      if usePositional then x.positional style.pointZero else x.scientific style.plus

end TensorMechanics.Decimal
