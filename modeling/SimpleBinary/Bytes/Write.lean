import SimpleBinary.Bytes.Word
import SimpleBinary.Text.Utf8
import SimpleBinary.Value

/-! What is written to the end of a byte sequence. Only a block too long for
its length of 16 bits cannot be written, and then nothing is. -/
namespace SimpleBinary.Bytes

def maxBlock : Nat := 65535

def block? (bytes : List UInt8) : Option (List UInt8) :=
  if bytes.length ≤ maxBlock then some (ofWord16 (UInt16.ofNat bytes.length) ++ bytes) else none

def text? (text : String) : Option (List UInt8) := block? (Text.utf8 text)

inductive Write where
  | byte (value : UInt8)
  | bytes (value : List UInt8)
  | word16 (value : UInt16)
  | word32 (value : Int32)
  | word64 (value : Int64)
  | block (value : List UInt8)
  | text (value : String)
  | value (value : Value) (order : ByteOrder)

def Write.bytes? : Write → Option (List UInt8)
  | .byte n => some [n]
  | .bytes data => some data
  | .word16 n => some (ofWord16 n)
  | .word32 n => some (ofWord32 n)
  | .word64 n => some (ofWord64 n)
  | .block data => block? data
  | .text content => text? content
  | .value content order => some (content.toBytes order)

/-- The data after a write, unchanged when it fails, and whether it was done. -/
def Write.apply (data : List UInt8) (write : Write) : Bool × List UInt8 :=
  match write.bytes? with
  | some added => (true, data ++ added)
  | none => (false, data)

end SimpleBinary.Bytes
