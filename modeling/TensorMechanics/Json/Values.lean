import TensorMechanics.Elasticity
import TensorMechanics.Json.Reader
import TensorMechanics.Product
import TensorMechanics.Scalar.Binary
import TensorMechanics.Tensor.Format

/-!
# Tensors and parameters in data files

`Json.listFormat` is the format of lists of numbers, and thereby of tensors. Material parameters and
settings are records. Settings that are missing take their defaults.
-/

namespace TensorMechanics.Json

/-- Numbers that can be read. -/
class Readable (α : Type) where
  /-- The name of the type of numbers. -/
  typeName : String
  /-- The number of a numeral. -/
  ofNumeral : Numeral → Except ReadError α

/-- An integer of a range, which numerals outside the range and floating-point numerals are not. -/
def boundedOfNumeral (range : IntRange) (typeName : String) :
    Numeral → Except ReadError (Bounded range)
  | .integer n =>
    match Bounded.ofInt? range n with
    | some x => .ok x
    | none => .error (.outOfRange n typeName)
  | .real x => .error (.mismatch (.real x) typeName)

instance : Readable (Bounded .signed64) := ⟨"i64", boundedOfNumeral .signed64 "i64"⟩

instance : Readable (Bounded .signed32) := ⟨"i32", boundedOfNumeral .signed32 "i32"⟩

instance : Readable (Bounded .unsigned8) := ⟨"u8", boundedOfNumeral .unsigned8 "u8"⟩

/-- Sizes are unsigned numbers of 64 bits. -/
instance : Readable (Bounded .unsigned64) := ⟨"usize", boundedOfNumeral .unsigned64 "usize"⟩

/-- An integer as the nearest number of 64 bits. -/
def floatOfInt (n : Int) : Float :=
  if n < 0 then -n.natAbs.toUInt64.toFloat else n.natAbs.toUInt64.toFloat

/-- An integer as the nearest number of 32 bits. -/
def float32OfInt (n : Int) : Float32 :=
  if n < 0 then -n.natAbs.toUInt64.toFloat32 else n.natAbs.toUInt64.toFloat32

instance : Readable Float where
  typeName := "f64"
  ofNumeral
    | .integer n => .ok (floatOfInt n)
    | .real x => .ok x

instance : Readable Float32 where
  typeName := "f32"
  ofNumeral
    | .integer n => .ok (float32OfInt n)
    | .real x => .ok x.toFloat32

/-- Reads a number. -/
def scalar (α : Type) [Readable α] : Reader α := fun cs =>
  match skipBlanks cs with
  | [] => .error .ended
  | c :: rest =>
    if c = '-' || c.isDigit then do
      let (numeral, rest) ← Numeral.read (c :: rest)
      return (← Readable.ofNumeral numeral, rest)
    else mismatched (Readable.typeName α) (c :: rest)

/-- Reads a tensor. The length of the list is checked when all of it has been read. -/
def tensor (α : Type) [Readable α] (d r : Nat) : Reader (Tensor α d r) :=
  Tensor.reader (Reader.list (scalar α)) .shape d r

/-- The text of a list of numbers. -/
def listText {α : Type} [ScalarText α] (xs : List α) : String :=
  "[" ++ ",".intercalate (xs.map ScalarText.json) ++ "]"

/-- The format of lists of numbers, read character by character. -/
def listFormat (α : Type) [Readable α] [ScalarText α] : ListFormat (List Char) ReadError α where
  write xs := (listText xs).toList
  read := Reader.list (scalar α)
  refuse := .shape

/-- The text of a record: its names and the texts of its values. -/
def recordText (fields : List (String × String)) : String :=
  "\x7b" ++ ",".intercalate (fields.map fun (name, value) => "\"" ++ name ++ "\":" ++ value) ++ "\x7d"

/-! ## Material parameters -/

/-- Reads Lamé parameters. -/
def lameParameters (α : Type) [Readable α] : Reader (Elasticity.LameParameters α) := fun cs => do
  match ← Reader.record ⟨"LameParameters", [("mu", none), ("lambda", none)]⟩ (scalar α) cs with
  | ([mu, lambda], rest) => return (⟨mu, lambda⟩, rest)
  | _ => .error .malformed

/-- The text of Lamé parameters. -/
def lameText {α : Type} [ScalarText α] (p : Elasticity.LameParameters α) : String :=
  recordText [("mu", ScalarText.json p.mu), ("lambda", ScalarText.json p.lambda)]

/-- Reads Young's modulus and Poisson's ratio. -/
def youngPoisson (α : Type) [Readable α] : Reader (Elasticity.YoungPoisson α) := fun cs => do
  match ← Reader.record ⟨"YoungPoisson", [("young", none), ("poisson", none)]⟩ (scalar α) cs with
  | ([young, poisson], rest) => return (⟨young, poisson⟩, rest)
  | _ => .error .malformed

/-- The text of Young's modulus and Poisson's ratio. -/
def youngPoissonText {α : Type} [ScalarText α] (p : Elasticity.YoungPoisson α) : String :=
  recordText [("young", ScalarText.json p.young), ("poisson", ScalarText.json p.poisson)]

/-! ## Settings -/

/-- Reads the settings of a product. Missing ones are those of the given settings. -/
def settings (defaults : Product.Settings) : Reader Product.Settings := fun cs => do
  let size (n : Nat) := Bounded.ofInt? .unsigned64 n
  let fields :=
    [("leaf_size", size defaults.leafSize), ("max_parallel_depth", size defaults.maxParallelDepth)]
  match ← Reader.record ⟨"MatmulSettings", fields⟩ (scalar (Bounded .unsigned64)) cs with
  | ([leafSize, depth], rest) => return (⟨leafSize.val.toNat, depth.val.toNat⟩, rest)
  | _ => .error .malformed

/-- The text of the settings of a product. -/
def settingsText (s : Product.Settings) : String :=
  recordText [("leaf_size", toString s.leafSize), ("max_parallel_depth", toString s.maxParallelDepth)]

end TensorMechanics.Json
