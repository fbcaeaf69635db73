import SimpleBinary.Bytes.Word
import SimpleBinary.Text.Utf8

/-! A place in a byte sequence, and the reads that move it on. A read that
fails leaves the cursor where it was, except that a block whose length could
be read leaves it behind that length. -/
namespace SimpleBinary

structure Cursor where
  index : Nat
  rest : List UInt8

namespace Cursor

def ofBytes (data : List UInt8) : Cursor := ⟨0, data⟩

def remaining (cursor : Cursor) : Nat := cursor.rest.length

def bytes (count : Nat) (cursor : Cursor) : Option (List UInt8) × Cursor :=
  let taken := cursor.rest.take count
  if taken.length = count then (some taken, ⟨cursor.index + count, cursor.rest.drop count⟩)
  else (none, cursor)

def byte (cursor : Cursor) : Option UInt8 × Cursor :=
  match cursor.rest with
  | [] => (none, cursor)
  | byte :: rest => (some byte, ⟨cursor.index + 1, rest⟩)

def word16 (cursor : Cursor) : Option UInt16 × Cursor :=
  (cursor.bytes 2).map (Option.map Bytes.toWord16) id

def word32 (cursor : Cursor) : Option Int32 × Cursor :=
  (cursor.bytes 4).map (Option.map Bytes.toWord32) id

def word64 (cursor : Cursor) : Option Int64 × Cursor :=
  (cursor.bytes 8).map (Option.map Bytes.toWord64) id

/-- A length of 16 bits and as many bytes. -/
def block (cursor : Cursor) : Option (List UInt8) × Cursor :=
  match cursor.word16 with
  | (none, cursor) => (none, cursor)
  | (some length, cursor) => cursor.bytes length.toNat

def text (cursor : Cursor) : Option String × Cursor :=
  cursor.block.map (Option.map Text.ofUtf8Lossy) id

inductive Step where
  | byte
  | bytes (count : Nat)
  | word16
  | word32
  | word64
  | block
  | text

inductive Item where
  | number (value : Int)
  | bytes (value : List UInt8)
  | text (value : String)
  deriving DecidableEq

def step (cursor : Cursor) : Step → Option Item × Cursor
  | .byte => cursor.byte.map (Option.map fun n => .number n.toNat) id
  | .bytes count => (cursor.bytes count).map (Option.map .bytes) id
  | .word16 => cursor.word16.map (Option.map fun n => .number n.toNat) id
  | .word32 => cursor.word32.map (Option.map fun n => .number n.toInt) id
  | .word64 => cursor.word64.map (Option.map fun n => .number n.toInt) id
  | .block => cursor.block.map (Option.map .bytes) id
  | .text => cursor.text.map (Option.map .text) id

end Cursor
end SimpleBinary
