import SimpleBinary.Value
import SimpleBinary.Decimal.Reading
import SimpleBinary.Text.Blank
import SimpleBinary.Text.Escaped

/-! Values from the literals of a schema. -/
namespace SimpleBinary

inductive LiteralError where
  | malformedChar (text : String)
  | invalid (text : String) (primitive : Primitive)
  | tooLong (text : String) (length : Nat)
  deriving DecidableEq

def LiteralError.message : LiteralError → String
  | .malformedChar text => s!"constant char value malformed: {Text.escape text}"
  | .invalid text primitive => s!"cannot parse {Text.escape text} as {primitive.name}"
  | .tooLong text length => s!"length of {Text.escape text} exceeds expected length {length}"

namespace Value

def range (primitive : Primitive) : Int × Int :=
  let count : Nat := 1 <<< (8 * primitive.size)
  if primitive.isUnsigned then (0, (count : Int) - 1)
  else (-((count / 2 : Nat) : Int), ((count / 2 : Nat) : Int) - 1)

/-- Only unsigned literals of 64 bits refuse a minus sign outright; the
narrower unsigned types accept it on zero. -/
def integerLiteral? (chars : List Char) (primitive : Primitive) : Option Int :=
  match primitive with
  | .uint64 => (Text.natural? chars).map fun n => (n : Int)
  | _ => Text.integer? chars

/-- A character is exactly one byte and is not trimmed; numbers are. -/
def ofLiteral (text : String) (primitive : Primitive) : Except LiteralError Value :=
  let chars := Text.trimChars text.toList
  let number (value : Option Value) : Except LiteralError Value :=
    match value with
    | some value => .ok value
    | none => .error (.invalid text primitive)
  match primitive with
  | .char =>
    match Text.utf8 text with
    | [byte] => .ok (.long (Int64.ofNat byte.toNat) 1)
    | _ => .error (.malformedChar text)
  | .float => number ((Double.readSingle? chars).map (.double · 4))
  | .double => number ((Double.read? chars).map (.double · 8))
  | _ => number do
    let n ← integerLiteral? chars primitive
    if (range primitive).1 ≤ n ∧ n ≤ (range primitive).2 then
      some (.long (Int64.ofInt n) primitive.size)
    else none

/-- A character array padded with zeros; one of length one is a character. -/
def ofArrayLiteral (text : String) (length : Nat) (characterEncoding : String) :
    Except LiteralError Value :=
  if length = 1 then ofLiteral text .char
  else
    let bytes := Text.utf8 text
    if length < bytes.length then .error (.tooLong text length)
    else .ok (.bytes (bytes ++ List.replicate (length - bytes.length) 0) characterEncoding)

end Value
end SimpleBinary
