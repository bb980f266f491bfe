import TensorMechanics.Text.Unprinted

/-!
# Quoted text

A text between quotes in which no character is invisible: quotes and backslashes follow a
backslash, line ends and tabs have letters, and every other unprinted character is written as its
code point.
-/

namespace TensorMechanics.Text.Quoted

/-- The lower-case hexadecimal digits of a number. -/
def hexadecimal (n : Nat) : String := String.ofList (Nat.toDigits 16 n)

/-- A character as it stands between quotes. -/
def character (c : Char) : String :=
  if c = '"' then "\\\""
  else if c = '\\' then "\\\\"
  else if c = '\n' then "\\n"
  else if c = '\r' then "\\r"
  else if c = '\t' then "\\t"
  else if c = '\x00' then "\\0"
  else if Unprinted.contains c.toNat then "\\u\x7b" ++ hexadecimal c.toNat ++ "\x7d"
  else c.toString

/-- A text between quotes. -/
def quote (s : String) : String := "\"" ++ String.join (s.toList.map character) ++ "\""

end TensorMechanics.Text.Quoted
