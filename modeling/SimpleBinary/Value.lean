import SimpleBinary.Bytes.Word
import SimpleBinary.Decimal.Shortest
import SimpleBinary.Text.Utf8

/-! Primitive values: an integer, a double, or the bytes of a character
array. An unsigned integer of 64 bits is held by its bit pattern. -/
namespace SimpleBinary

inductive Value where
  | long (value : Int64) (size : Nat)
  | double (value : Double) (size : Nat)
  | bytes (value : List UInt8) (characterEncoding : String)
  deriving DecidableEq

namespace Value

def defaultCharacterEncoding : String := "US-ASCII"

/-- Equal in kind and content; neither width nor character encoding counts. -/
def same : Value → Value → Bool
  | .long a _, .long b _ => a = b
  | .double a _, .double b _ => a = b
  | .bytes a _, .bytes b _ => a = b
  | _, _ => false

instance : BEq Value := ⟨same⟩

def size : Value → Nat
  | .long _ size => size
  | .double _ size => size
  | .bytes value _ => value.length

def asLong? : Value → Option Int64
  | .long value _ => some value
  | _ => none

/-- Integers count as doubles, rounded where they must be. -/
def asDouble? : Value → Option Double
  | .double value _ => some value
  | .long value _ => some (.ofInt value.toInt)
  | .bytes .. => none

def asBytes? : Value → Option (List UInt8)
  | .bytes value _ => some value
  | _ => none

def characterEncoding? : Value → Option String
  | .bytes _ characterEncoding => some characterEncoding
  | _ => none

def display : Value → String
  | .long value _ => toString value.toInt
  | .double value _ => value.display
  | .bytes value _ => Text.ofUtf8Lossy (value.takeWhile (· ≠ 0))

/-- The bytes on the wire. An integer is cut to its width, which is at most
eight; a double of width four is written as a single, any other in full. -/
def toBytes (order : ByteOrder) : Value → List UInt8
  | .long value size => Bytes.arrange order (Bytes.ofNat (min size 8) value.toUInt64.toNat)
  | .double value size =>
    if size = 4 then Bytes.arrange order (Bytes.ofNat 4 value.toSingleBits.toNat)
    else Bytes.arrange order (Bytes.ofNat 8 value.bits.toNat)
  | .bytes value _ => value

def signed (size bits : Nat) : Int :=
  if bits < 1 <<< (8 * size - 1) then bits else (bits : Int) - (1 <<< (8 * size) : Nat)

def ofBits (primitive : Primitive) (bits : Nat) : Value :=
  match primitive with
  | .float => .double (.ofSingleBits (UInt32.ofNat bits)) primitive.size
  | .double => .double ⟨UInt64.ofNat bits⟩ primitive.size
  | .int8 | .int16 | .int32 => .long (Int64.ofInt (signed primitive.size bits)) primitive.size
  | _ => .long (Int64.ofNat bits) primitive.size

def read? (data : List UInt8) (offset : Nat) (primitive : Primitive) (order : ByteOrder) :
    Option Value :=
  if offset + primitive.size ≤ data.length then
    let bytes := (data.drop offset).take primitive.size
    some (ofBits primitive (Bytes.toNat (Bytes.arrange order bytes)))
  else none

def fresh (seen : List Value) : List Value → List Bool
  | [] => []
  | value :: rest => (!seen.any (value.same ·)) :: fresh (value :: seen) rest

end Value

namespace Primitive

/-- The least number is kept for the null value of a signed type, the
greatest for that of an unsigned one. -/
def minValue (primitive : Primitive) : Value :=
  match primitive with
  | .char => .long 0x20 1
  | .int8 => .long (-127) 1
  | .int16 => .long (-32767) 2
  | .int32 => .long (-2147483647) 4
  | .int64 => .long (-9223372036854775807) 8
  | .uint8 => .long 0 1
  | .uint16 => .long 0 2
  | .uint32 => .long 0 4
  | .uint64 => .long 0 8
  | .float => .double (.ofSingleBits 0xFF7FFFFF) 4
  | .double => .double .least 8

def maxValue (primitive : Primitive) : Value :=
  match primitive with
  | .char => .long 0x7E 1
  | .int8 => .long 127 1
  | .int16 => .long 32767 2
  | .int32 => .long 2147483647 4
  | .int64 => .long 9223372036854775807 8
  | .uint8 => .long 254 1
  | .uint16 => .long 65534 2
  | .uint32 => .long 4294967294 4
  | .uint64 => .long (-2) 8
  | .float => .double (.ofSingleBits 0x7F7FFFFF) 4
  | .double => .double .greatest 8

def nullValue (primitive : Primitive) : Value :=
  match primitive with
  | .char => .long 0 1
  | .int8 => .long (-128) 1
  | .int16 => .long (-32768) 2
  | .int32 => .long (-2147483648) 4
  | .int64 => .long (-9223372036854775808) 8
  | .uint8 => .long 255 1
  | .uint16 => .long 65535 2
  | .uint32 => .long 4294967295 4
  | .uint64 => .long (-1) 8
  | .float => .double .nan 4
  | .double => .double .nan 8

end Primitive
end SimpleBinary
