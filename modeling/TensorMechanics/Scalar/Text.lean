import TensorMechanics.Decimal
import TensorMechanics.Scalar.Bounded
import TensorMechanics.Tensor.Text

/-!
# Scalars as text

A scalar has three texts: one for people, one for inspection and one for data files. Integers have
the same in all. Floating-point numbers are always written with the fewest digits that read back as
the same number of their format, and differ in the notation around them.
-/

namespace TensorMechanics

/-- Numbers that can be written. -/
class ScalarText (α : Type) where
  /-- The text for people. -/
  display : α → String
  /-- The text for inspection. -/
  inspect : α → String
  /-- The text in a data file. -/
  json : α → String

namespace Decimal.Style

/-- Positional always, and integers without a point. -/
def display : Style where
  positional := none
  pointZero := false
  plus := false
  tie := .up
  nan := "NaN"
  infinity := "inf"
  negativeInfinity := "-inf"

/-- Integers keep a point, and very small and very large numbers have an exponent. -/
def inspect : Style where
  positional := some (-4, 15)
  pointZero := true
  plus := false
  tie := .up
  nan := "NaN"
  infinity := "inf"
  negativeInfinity := "-inf"

/-- Data files cannot hold what is not finite, and exponents always have a sign. -/
def json (least greatest : Int) : Style where
  positional := some (least, greatest)
  pointZero := true
  plus := true
  tie := .even
  nan := "null"
  infinity := "null"
  negativeInfinity := "null"

end Decimal.Style

instance {range : IntRange} : ScalarText (Bounded range) where
  display n := toString n.val
  inspect n := toString n.val
  json n := toString n.val

/-- The value of a number of 64 bits. -/
def decode64 (x : Float) : Decimal.Value := Decimal.binary64.decode x.toBits.toNat

/-- The value of a number of 32 bits. -/
def decode32 (x : Float32) : Decimal.Value := Decimal.binary32.decode x.toBits.toNat

instance : ScalarText Float where
  display x := Decimal.Style.display.text (decode64 x)
  inspect x := Decimal.Style.inspect.text (decode64 x)
  json x := (Decimal.Style.json (-5) 15).text (decode64 x)

instance : ScalarText Float32 where
  display x := Decimal.Style.display.text (decode32 x)
  inspect x := Decimal.Style.inspect.text (decode32 x)
  json x := (Decimal.Style.json (-6) 12).text (decode32 x)

namespace Tensor

variable {α : Type} [ScalarText α] {d r : Nat}

/-- The nested list of the entries, for people. -/
def display (t : Tensor α d r) : Checked String := t.text ScalarText.display

/-- The record of the entries, for inspection. -/
def inspect (t : Tensor α d r) : String :=
  "Tensor \x7b data: " ++ bracketed (t.toList.map ScalarText.inspect) ++ " \x7d"

/-- The list of the entries in a data file. -/
def json (t : Tensor α d r) : String :=
  "[" ++ ",".intercalate (t.toList.map ScalarText.json) ++ "]"

end Tensor

end TensorMechanics
