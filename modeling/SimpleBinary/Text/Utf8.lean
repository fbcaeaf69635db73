/-! Text as UTF-8 bytes, and the reading of bytes that need not be well
formed: each longest start of a character that cannot be completed reads as
one replacement character. -/
namespace SimpleBinary.Text

def utf8 (text : String) : List UInt8 :=
  text.toList.flatMap String.utf8EncodeChar

namespace Utf8

/-- A character that has begun: its bits so far, how many bytes are still
owed, and the range of the next one. -/
structure Pending where
  bits : Nat
  owed : Nat
  least : UInt8
  greatest : UInt8

inductive Lead where
  | whole (c : Char)
  | begun (pending : Pending)
  | invalid

/-- The narrower ranges exclude overlong forms, surrogates and numbers
beyond the last character. -/
def lead (byte : UInt8) : Lead :=
  let n := byte.toNat
  if n < 0x80 then .whole (Char.ofNat n)
  else if 0xC2 ≤ n ∧ n ≤ 0xDF then .begun ⟨n - 0xC0, 1, 0x80, 0xBF⟩
  else if n = 0xE0 then .begun ⟨0, 2, 0xA0, 0xBF⟩
  else if n = 0xED then .begun ⟨0x0D, 2, 0x80, 0x9F⟩
  else if 0xE1 ≤ n ∧ n ≤ 0xEF then .begun ⟨n - 0xE0, 2, 0x80, 0xBF⟩
  else if n = 0xF0 then .begun ⟨0, 3, 0x90, 0xBF⟩
  else if 0xF1 ≤ n ∧ n ≤ 0xF3 then .begun ⟨n - 0xF0, 3, 0x80, 0xBF⟩
  else if n = 0xF4 then .begun ⟨4, 3, 0x80, 0x8F⟩
  else .invalid

def replacement : Char := '\uFFFD'

/-- A byte that cannot continue the pending character ends it and is then
read as a lead byte itself. -/
def decode : Option Pending → List UInt8 → List Char
  | none, [] => []
  | some _, [] => [replacement]
  | some pending, byte :: rest =>
    if pending.least ≤ byte ∧ byte ≤ pending.greatest then
      let bits := pending.bits * 64 + (byte.toNat - 0x80)
      match pending.owed with
      | 0 | 1 => Char.ofNat bits :: decode none rest
      | owed + 2 => decode (some ⟨bits, owed + 1, 0x80, 0xBF⟩) rest
    else
      match lead byte with
      | .whole c => replacement :: c :: decode none rest
      | .begun next => replacement :: decode (some next) rest
      | .invalid => replacement :: replacement :: decode none rest
  | none, byte :: rest =>
    match lead byte with
    | .whole c => c :: decode none rest
    | .begun next => decode (some next) rest
    | .invalid => replacement :: decode none rest

def valid (bytes : List UInt8) : Bool :=
  utf8 (String.ofList (decode none bytes)) = bytes

end Utf8

def ofUtf8Lossy (bytes : List UInt8) : String :=
  String.ofList (Utf8.decode none bytes)

def ofUtf8? (bytes : List UInt8) : Option String :=
  if Utf8.valid bytes then some (ofUtf8Lossy bytes) else none

end SimpleBinary.Text
