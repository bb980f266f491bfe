import TensorMechanics.Json.Numeral

/-!
# Reading data files

Data files hold numbers, lists of values, and records of named values. A reader takes the text from
left to right and the first problem decides what is reported; so what a list or a record holds is
checked while it is read, and its closing bracket only afterwards.

`Reader.list` reads lists, `Reader.record` reads records of values of one type. A record may also be
written as the list of its values. Names that a record does not have are skipped with their values.
-/

namespace TensorMechanics.Json

/-- The characters between the parts of a data file. -/
def isBlank (c : Char) : Bool := c = ' ' || c = '\n' || c = '\t' || c = '\r'

/-- The text from the first character on that is not blank. -/
def skipBlanks (cs : List Char) : List Char := cs.dropWhile isBlank

/-- Reads the given characters. -/
def word (expected : List Char) : List Char → Except ReadError (List Char) := fun cs =>
  match expected, cs with
  | [], cs => .ok cs
  | _ :: _, [] => .error .ended
  | e :: expected, c :: cs => if c = e then word expected cs else .error .malformed

/-! ## Strings -/

/-- The value of a hexadecimal digit. -/
def hexValue? (c : Char) : Option Nat :=
  if c.isDigit then some (c.toNat - '0'.toNat)
  else if 'a' ≤ c ∧ c ≤ 'f' then some (c.toNat - 'a'.toNat + 10)
  else if 'A' ≤ c ∧ c ≤ 'F' then some (c.toNat - 'A'.toNat + 10)
  else none

/-- Reads four hexadecimal digits. The text must go on for four bytes. -/
def fourHex : Reader Nat := fun cs =>
  if (String.ofList cs).utf8ByteSize < 4 then .error .ended
  else
    match cs with
    | a :: b :: c :: d :: rest =>
      match hexValue? a, hexValue? b, hexValue? c, hexValue? d with
      | some a, some b, some c, some d => .ok (((a * 16 + b) * 16 + c) * 16 + d, rest)
      | _, _, _, _ => .error .malformed
    | _ => .error .malformed

/-- Reads the second half of a character that is written as two code units. -/
def secondUnit (high : Nat) : Reader Char := fun cs => do
  let rest ← word ['\\', 'u'] cs
  let (low, rest) ← fourHex rest
  if 0xdc00 ≤ low ∧ low ≤ 0xdfff then
    return (Char.ofNat ((high - 0xd800) * 0x400 + (low - 0xdc00) + 0x10000), rest)
  else .error .malformed

/-- Reads a character behind a backslash. -/
def escaped : Reader Char := fun cs =>
  match cs with
  | [] => .error .ended
  | '"' :: rest => .ok ('"', rest)
  | '\\' :: rest => .ok ('\\', rest)
  | '/' :: rest => .ok ('/', rest)
  | 'b' :: rest => .ok ('\x08', rest)
  | 'f' :: rest => .ok ('\x0c', rest)
  | 'n' :: rest => .ok ('\n', rest)
  | 'r' :: rest => .ok ('\r', rest)
  | 't' :: rest => .ok ('\t', rest)
  | 'u' :: rest => do
    let (unit, rest) ← fourHex rest
    if 0xdc00 ≤ unit ∧ unit ≤ 0xdfff then .error .malformed
    else if 0xd800 ≤ unit ∧ unit ≤ 0xdbff then secondUnit unit rest
    else return (Char.ofNat unit, rest)
  | _ => .error .malformed

/-- Skips a character behind a backslash. Code units need not form characters. -/
def skipEscaped : List Char → Except ReadError (List Char) := fun cs =>
  match cs with
  | [] => .error .ended
  | 'u' :: rest => do
    let (_, rest) ← fourHex rest
    return rest
  | c :: rest => if "\"\\/bfnrt".toList.contains c then .ok rest else .error .malformed

/-- Reads a string behind its first quote. The characters before are given in reverse order. -/
def stringFrom : (fuel : Nat) → List Char → Reader String
  | 0, _, _ => .error .ended
  | _, _, [] => .error .ended
  | _, before, '"' :: rest => .ok (String.ofList before.reverse, rest)
  | fuel + 1, before, '\\' :: rest => do
    let (c, rest) ← escaped rest
    stringFrom fuel (c :: before) rest
  | fuel + 1, before, c :: rest =>
    if c < ' ' then .error .malformed else stringFrom fuel (c :: before) rest

/-- Reads a string behind its first quote. -/
def string : Reader String := fun cs => stringFrom (cs.length + 1) [] cs

/-- Skips a string behind its first quote. -/
def skipStringFrom : (fuel : Nat) → List Char → Except ReadError (List Char)
  | 0, _ => .error .ended
  | _, [] => .error .ended
  | _, '"' :: rest => .ok rest
  | fuel + 1, '\\' :: rest => do skipStringFrom fuel (← skipEscaped rest)
  | fuel + 1, c :: rest => if c < ' ' then .error .malformed else skipStringFrom fuel rest

/-- Skips a string behind its first quote. -/
def skipString (cs : List Char) : Except ReadError (List Char) := skipStringFrom (cs.length + 1) cs

/-! ## Values of any kind -/

/-- The error for a value that is not of the expected kind. Enough of the value is read to say what
it is. -/
def mismatched {β : Type} (expected : String) (cs : List Char) : Except ReadError β :=
  let found (what : Found) : Except ReadError β := .error (.mismatch what expected)
  match cs with
  | 'n' :: rest => do
    let _ ← word ['u', 'l', 'l'] rest
    found .null
  | 't' :: rest => do
    let _ ← word ['r', 'u', 'e'] rest
    found (.boolean true)
  | 'f' :: rest => do
    let _ ← word ['a', 'l', 's', 'e'] rest
    found (.boolean false)
  | '"' :: rest => do
    let (s, _) ← string rest
    found (.string s)
  | '[' :: _ => found .list
  | '\x7b' :: _ => found .record
  | c :: _ =>
    if c = '-' || c.isDigit then do
      let (numeral, _) ← Numeral.read cs
      found numeral.found
    else .error .malformed
  | [] => .error .ended

/-- The brackets around a part of a text. -/
inductive Enclosing where
  | list
  | record
  deriving DecidableEq

/-- Skips a name and the colon behind it. -/
def skipName (cs : List Char) : Except ReadError (List Char) :=
  match skipBlanks cs with
  | '"' :: rest => do
    match skipBlanks (← skipString rest) with
    | ':' :: rest => .ok rest
    | [] => .error .ended
    | _ => .error .malformed
  | [] => .error .ended
  | _ => .error .malformed

mutual

/-- Skips a value and what encloses it, the innermost brackets first. -/
def skipValueFrom : (fuel : Nat) → List Enclosing → List Char → Except ReadError (List Char)
  | 0, _, _ => .error .ended
  | fuel + 1, enclosing, cs =>
    match skipBlanks cs with
    | [] => .error .ended
    | 'n' :: rest => do skipClosingFrom fuel enclosing (← word ['u', 'l', 'l'] rest)
    | 't' :: rest => do skipClosingFrom fuel enclosing (← word ['r', 'u', 'e'] rest)
    | 'f' :: rest => do skipClosingFrom fuel enclosing (← word ['a', 'l', 's', 'e'] rest)
    | '"' :: rest => do skipClosingFrom fuel enclosing (← skipString rest)
    | '-' :: rest => do skipClosingFrom fuel enclosing (← Numeral.skip rest)
    | '[' :: rest =>
      match skipBlanks rest with
      | [] => .error .ended
      | ']' :: rest => skipClosingFrom fuel enclosing rest
      | rest => skipValueFrom fuel (.list :: enclosing) rest
    | '\x7b' :: rest =>
      match skipBlanks rest with
      | [] => .error .ended
      | '\x7d' :: rest => skipClosingFrom fuel enclosing rest
      | rest => do skipValueFrom fuel (.record :: enclosing) (← skipName rest)
    | c :: rest =>
      if c.isDigit then do skipClosingFrom fuel enclosing (← Numeral.skip (c :: rest))
      else .error .malformed

/-- Skips what follows a value inside the given brackets. -/
def skipClosingFrom : (fuel : Nat) → List Enclosing → List Char → Except ReadError (List Char)
  | 0, _, _ => .error .ended
  | _, [], cs => .ok cs
  | fuel + 1, .list :: enclosing, cs =>
    match skipBlanks cs with
    | [] => .error .ended
    | ',' :: rest => skipValueFrom fuel (.list :: enclosing) rest
    | ']' :: rest => skipClosingFrom fuel enclosing rest
    | _ => .error .malformed
  | fuel + 1, .record :: enclosing, cs =>
    match skipBlanks cs with
    | [] => .error .ended
    | ',' :: rest => do skipValueFrom fuel (.record :: enclosing) (← skipName rest)
    | '\x7d' :: rest => skipClosingFrom fuel enclosing rest
    | _ => .error .malformed

end

/-- Skips a value. -/
def skipValue (cs : List Char) : Except ReadError (List Char) :=
  skipValueFrom (2 * cs.length + 2) [] cs

/-! ## Lists and records -/

namespace Reader

variable {β : Type}

/-- Finds the next item of a list: the text of the item, or none at the closing bracket. -/
def nextItem? (first : Bool) (cs : List Char) : Except ReadError (Option (List Char)) :=
  match skipBlanks cs with
  | [] => .error .ended
  | ']' :: _ => .ok none
  | ',' :: rest =>
    if first then .ok (some (',' :: rest))
    else
      match skipBlanks rest with
      | [] => .error .ended
      | ']' :: _ => .error .malformed
      | rest => .ok (some rest)
  | rest => if first then .ok (some rest) else .error .malformed

/-- Reads the closing bracket of a list. -/
def endList (cs : List Char) : Except ReadError (List Char) :=
  match skipBlanks cs with
  | [] => .error .ended
  | ']' :: rest => .ok rest
  | _ => .error .malformed

/-- Reads items up to the closing bracket. -/
def itemsFrom (item : Reader β) : (fuel : Nat) → (first : Bool) → Reader (List β)
  | 0, _, _ => .error .ended
  | fuel + 1, first, cs => do
    match ← nextItem? first cs with
    | none => return ([], cs)
    | some cs =>
      let (x, rest) ← item cs
      let (xs, rest) ← itemsFrom item fuel false rest
      return (x :: xs, rest)

/-- Reads a list. -/
def list (item : Reader β) : Reader (List β) := fun cs =>
  match skipBlanks cs with
  | [] => .error .ended
  | '[' :: rest => do
    let (xs, rest) ← itemsFrom item (rest.length + 1) true rest
    return (xs, ← endList rest)
  | cs => mismatched "a sequence" cs

/-- The fields of a record: their names in order, each with the value that it has if it is
missing. -/
structure Fields (β : Type) where
  /-- The name of the record. -/
  record : String
  /-- The names in order, each with its default. -/
  fields : List (String × Option β)

/-- Reads the values of the fields from a list. -/
def fieldItems (record : String) (count : Nat) (item : Reader β) :
    List (String × Option β) → (position : Nat) → Reader (List β)
  | [], _, cs => .ok ([], cs)
  | (_, default) :: fields, position, cs => do
    match ← nextItem? (position = 0) cs with
    | some cs =>
      let (x, rest) ← item cs
      let (xs, rest) ← fieldItems record count item fields (position + 1) rest
      return (x :: xs, rest)
    | none =>
      match default with
      | some x => do
        let (xs, rest) ← fieldItems record count item fields (position + 1) cs
        return (x :: xs, rest)
      | none => .error (.tooShort position record count)

/-- Finds the next name of a record: the text behind its first quote, or none at the closing
bracket. -/
def nextName? (first : Bool) (cs : List Char) : Except ReadError (Option (List Char)) :=
  match skipBlanks cs with
  | [] => .error .ended
  | '\x7d' :: _ => .ok none
  | '"' :: rest => if first then .ok (some rest) else .error .malformed
  | ',' :: rest =>
    if first then .error .malformed
    else
      match skipBlanks rest with
      | [] => .error .ended
      | '"' :: rest => .ok (some rest)
      | _ => .error .malformed
  | _ => .error .malformed

/-- Reads the colon between a name and its value. -/
def colon (cs : List Char) : Except ReadError (List Char) :=
  match skipBlanks cs with
  | [] => .error .ended
  | ':' :: rest => .ok rest
  | _ => .error .malformed

/-- Reads names and values up to the closing bracket. The values found before are given. -/
def membersFrom (names : List String) (item : Reader β) :
    (fuel : Nat) → (first : Bool) → List (String × β) → Reader (List (String × β))
  | 0, _, _, _ => .error .ended
  | fuel + 1, first, found, cs => do
    match ← nextName? first cs with
    | none => return (found, cs)
    | some cs =>
      let (name, rest) ← string cs
      if names.contains name then
        if (found.lookup name).isSome then .error (.duplicateField name)
        else
          let (x, rest) ← item (← colon rest)
          membersFrom names item fuel false ((name, x) :: found) rest
      else
        membersFrom names item fuel false found (← skipValue (← colon rest))

/-- The values of the fields, given those that were found. -/
def fieldValues (found : List (String × β)) :
    List (String × Option β) → Except ReadError (List β)
  | [] => .ok []
  | (name, default) :: fields =>
    match found.lookup name, default with
    | some x, _ => return x :: (← fieldValues found fields)
    | none, some x => return x :: (← fieldValues found fields)
    | none, none => .error (.missingField name)

/-- Reads the closing bracket of a record. -/
def endRecord (cs : List Char) : Except ReadError (List Char) :=
  match skipBlanks cs with
  | [] => .error .ended
  | '\x7d' :: rest => .ok rest
  | _ => .error .malformed

/-- Reads a record. The answer lists the values in the order of the fields. -/
def record (description : Fields β) (item : Reader β) : Reader (List β) := fun cs =>
  let fields := description.fields
  match skipBlanks cs with
  | [] => .error .ended
  | '[' :: rest => do
    let (xs, rest) ← fieldItems description.record fields.length item fields 0 rest
    return (xs, ← endList rest)
  | '\x7b' :: rest => do
    let (found, rest) ← membersFrom (fields.map Prod.fst) item (rest.length + 1) true [] rest
    let xs ← fieldValues found fields
    return (xs, ← endRecord rest)
  | cs => mismatched ("struct " ++ description.record) cs

/-- Reads a whole text, behind which only blanks may follow. -/
def whole (reader : Reader β) (text : String) : Except ReadError β := do
  let (x, rest) ← reader text.toList
  if (skipBlanks rest).isEmpty then return x else .error .malformed

end Reader

end TensorMechanics.Json
