import TensorMechanics.Json.Error
import TensorMechanics.Word

/-!
# Numerals

Numbers in data files. A numeral without fraction and exponent is an integer if it fits 64 bits,
signed if it is negative; any other numeral, and minus zero, is a floating-point number.

A floating-point numeral is not rounded correctly. Its digits make a significand of 64 bits, from
which the first digit that no longer fits and all behind it are dropped, and the significand is
multiplied or divided by a power of ten, with one rounding in each step.
-/

namespace TensorMechanics.Json

/-- The value of a numeral. -/
inductive Numeral where
  | integer (n : Int)
  | real (x : Float)

/-- What a numeral is, where something else is expected. -/
def Numeral.found : Numeral → Found
  | .integer n => .integer n
  | .real x => .real x

namespace Numeral

/-- The value of a decimal digit. -/
def digitValue (c : Char) : Nat := c.toNat - '0'.toNat

/-- Reads digits as far as there are any. -/
def digits : Reader (List Nat) := fun cs =>
  .ok ((cs.takeWhile Char.isDigit).map digitValue, cs.dropWhile Char.isDigit)

/-- Appends digits to a significand as long as it fits a word. The answer has the digits from the
first one on that does not fit. -/
def absorb (significand : Nat) : List Nat → Nat × List Nat
  | [] => (significand, [])
  | d :: ds =>
    if significand * 10 + d < Word.limit then absorb (significand * 10 + d) ds
    else (significand, d :: ds)

/-- The power of ten with the given exponent. -/
def powerOfTen (e : Nat) : Float := Float.ofScientific 1 false e

/-- Multiplies a number by a power of ten. An infinite result is none. Exponents below the range of
the format are taken off in steps. -/
def scale (x : Float) (e : Int) : Option Float :=
  if e < -308 then
    if x == 0 then some x else scale (x / powerOfTen 308) (e + 308)
  else if e < 0 then some (x / powerOfTen (-e).toNat)
  else if e ≤ 308 then
    let y := x * powerOfTen e.toNat
    if y.isInf then none else some y
  else if x == 0 then some x
  else none
termination_by (-e).toNat
decreasing_by omega

/-- The floating-point number of a significand and an exponent, if it is finite. -/
def real? (negative : Bool) (significand : Nat) (e : Int) : Except ReadError Numeral :=
  match scale significand.toUInt64.toFloat e with
  | some x => .ok (.real (if negative then -x else x))
  | none => .error .malformed

/-- Reads the exponent behind its letter and makes the number. An exponent beyond 32 bits needs no
arithmetic: the number is zero, or too large. -/
def exponent (negative : Bool) (significand : Nat) (e : Int) : Reader Numeral := fun cs =>
  let (positive, cs) : Bool × List Char :=
    match cs with
    | '+' :: rest => (true, rest)
    | '-' :: rest => (false, rest)
    | _ => (true, cs)
  match cs with
  | [] => .error .ended
  | c :: _ =>
    if c.isDigit then do
      let (ds, rest) ← digits cs
      let size : Nat := ds.foldl (fun n d => n * 10 + d) 0
      let numeral ←
        if 2147483647 < size then
          if significand ≠ 0 ∧ positive then .error .malformed
          else .ok (.real (if negative then -0.0 else 0.0))
        else real? negative significand (if positive then e + size else e - size)
      return (numeral, rest)
    else .error .malformed

/-- Reads the fraction behind its point and what follows. -/
def fraction (negative : Bool) (significand : Nat) (e : Int) : Reader Numeral := fun cs => do
  let (ds, rest) ← digits cs
  match ds, rest with
  | [], [] => .error .ended
  | [], _ => .error .malformed
  | _, _ =>
    let (significand, dropped) := absorb significand ds
    let e := e - (ds.length - dropped.length : Nat)
    match rest with
    | c :: tail =>
      if c = 'e' ∨ c = 'E' then exponent negative significand e tail
      else return (← real? negative significand e, rest)
    | [] => return (← real? negative significand e, rest)

/-- The numeral of an integer significand without fraction and exponent. -/
def whole (negative : Bool) (significand : Nat) : Numeral :=
  if negative then
    if 0 < significand ∧ significand ≤ Nat.pow 2 63 then .integer (-significand)
    else .real (-significand.toUInt64.toFloat)
  else .integer significand

/-- Reads a numeral behind its sign. -/
def unsigned (negative : Bool) : Reader Numeral := fun cs => do
  let (ds, rest) ← digits cs
  match ds, cs with
  | [], [] => .error .ended
  | [], _ => .error .malformed
  | 0 :: _ :: _, _ => .error .malformed
  | _, _ =>
    let (significand, dropped) := absorb 0 ds
    let e : Int := dropped.length
    let ending : Except ReadError (Numeral × List Char) :=
      if dropped.isEmpty then .ok (whole negative significand, rest)
      else return (← real? negative significand e, rest)
    match rest with
    | '.' :: tail => fraction negative significand e tail
    | 'e' :: tail => exponent negative significand e tail
    | 'E' :: tail => exponent negative significand e tail
    | _ => ending

/-- Reads a numeral. -/
def read : Reader Numeral := fun cs =>
  match cs with
  | '-' :: rest => unsigned true rest
  | _ => unsigned false cs

/-- Skips digits, of which there must be one. -/
def skipDigits (cs : List Char) : Except ReadError (List Char) :=
  match cs with
  | c :: rest => if c.isDigit then .ok (rest.dropWhile Char.isDigit) else .error .malformed
  | [] => .error .malformed

/-- Skips an exponent, if there is one. -/
def skipExponent (cs : List Char) : Except ReadError (List Char) :=
  match cs with
  | c :: rest =>
    if c = 'e' ∨ c = 'E' then
      match rest with
      | '+' :: tail => skipDigits tail
      | '-' :: tail => skipDigits tail
      | _ => skipDigits rest
    else .ok cs
  | [] => .ok cs

/-- Skips a numeral behind its sign. Its value does not matter, and every fault of its form is
malformed text. -/
def skip (cs : List Char) : Except ReadError (List Char) := do
  let rest ← match cs with
    | '0' :: rest =>
      match rest with
      | c :: _ => if c.isDigit then .error .malformed else .ok rest
      | [] => .ok rest
    | _ => skipDigits cs
  match rest with
  | '.' :: tail => skipExponent (← skipDigits tail)
  | _ => skipExponent rest

end Numeral

end TensorMechanics.Json
