import TensorMechanics.Scalar.Text
import TensorMechanics.Text.Quoted

/-!
# Reading errors

What is wrong with a data file. A text may break off or be malformed, which says nothing about its
content; or it is well formed so far and holds something else than what is expected.
-/

namespace TensorMechanics.Json

/-- What a text holds where something else is expected. -/
inductive Found where
  | null
  | boolean (b : Bool)
  | integer (n : Int)
  | real (x : Float)
  | string (s : String)
  | list
  | record

/-- The description of what a text holds. -/
def Found.text : Found → String
  | .null => "null"
  | .boolean true => "boolean `true`"
  | .boolean false => "boolean `false`"
  | .integer n => s!"integer `{n}`"
  | .real x => s!"floating point `{ScalarText.json x}`"
  | .string s => "string " ++ Text.Quoted.quote s
  | .list => "sequence"
  | .record => "map"

/-- Why a text cannot be read. -/
inductive ReadError where
  /-- The text ends too early. -/
  | ended
  /-- The text is not in the format of data files. -/
  | malformed
  /-- The text holds something of another kind than expected. -/
  | mismatch (found : Found) (expected : String)
  /-- An integer does not fit the type of the number. -/
  | outOfRange (n : Int) (expected : String)
  /-- A list in place of a record has too few items. -/
  | tooShort (length : Nat) (record : String) (fields : Nat)
  | missingField (field : String)
  | duplicateField (field : String)
  /-- A list has another length than a tensor has entries. -/
  | shape (error : ShapeError)

/-- The sentence reported for a reading error. Of a text that breaks off or is malformed only that
is said. -/
def ReadError.message : ReadError → String
  | .ended => "eof"
  | .malformed => "syntax"
  | .mismatch found expected => s!"invalid type: {found.text}, expected {expected}"
  | .outOfRange n expected => s!"invalid value: integer `{n}`, expected {expected}"
  | .tooShort length record fields =>
    s!"invalid length {length}, expected struct {record} with {fields} elements"
  | .missingField field => s!"missing field `{field}`"
  | .duplicateField field => s!"duplicate field `{field}`"
  | .shape error => error.message

/-- Reads a prefix of a text; the answer comes with the rest of the text. -/
abbrev Reader (β : Type) := StateT (List Char) (Except ReadError) β

end TensorMechanics.Json
