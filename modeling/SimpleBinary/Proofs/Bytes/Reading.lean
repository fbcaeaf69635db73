import SimpleBinary.Bytes.Cursor
import SimpleBinary.Bytes.Write
import SimpleBinary.Proofs.Text.Utf8

/-! Every read of a cursor gives back what the matching write put in front of
it, and stops where that ended; of anything less than the whole it gives
nothing. -/
namespace SimpleBinary

namespace Bytes

def prefixed (bytes : List UInt8) : List UInt8 :=
  ofWord16 (UInt16.ofNat bytes.length) ++ bytes

theorem block?_eq (bytes : List UInt8) :
    block? bytes = if bytes.length ≤ maxBlock then some (prefixed bytes) else none := rfl

@[simp] theorem length_ofWord16 (n : UInt16) : (ofWord16 n).length = 2 := length_ofNat 2 _

@[simp] theorem length_ofWord32 (n : Int32) : (ofWord32 n).length = 4 := length_ofNat 4 _

@[simp] theorem length_ofWord64 (n : Int64) : (ofWord64 n).length = 8 := length_ofNat 8 _

theorem toNat_length {bytes : List UInt8} (h : bytes.length ≤ maxBlock) :
    (UInt16.ofNat bytes.length).toNat = bytes.length := by
  rw [UInt16.toNat_ofNat']
  exact Nat.mod_eq_of_lt (Nat.lt_of_le_of_lt h (by decide))

end Bytes

namespace Cursor

theorem bytes_append (index : Nat) (bytes rest : List UInt8) :
    (⟨index, bytes ++ rest⟩ : Cursor).bytes bytes.length =
      (some bytes, ⟨index + bytes.length, rest⟩) := by
  simp [Cursor.bytes]

theorem word16_append (index : Nat) (n : UInt16) (rest : List UInt8) :
    (⟨index, Bytes.ofWord16 n ++ rest⟩ : Cursor).word16 = (some n, ⟨index + 2, rest⟩) := by
  have h := bytes_append index (Bytes.ofWord16 n) rest
  rw [Bytes.length_ofWord16] at h
  simp [word16, h]

theorem word32_append (index : Nat) (n : Int32) (rest : List UInt8) :
    (⟨index, Bytes.ofWord32 n ++ rest⟩ : Cursor).word32 = (some n, ⟨index + 4, rest⟩) := by
  have h := bytes_append index (Bytes.ofWord32 n) rest
  rw [Bytes.length_ofWord32] at h
  simp [word32, h]

theorem word64_append (index : Nat) (n : Int64) (rest : List UInt8) :
    (⟨index, Bytes.ofWord64 n ++ rest⟩ : Cursor).word64 = (some n, ⟨index + 8, rest⟩) := by
  have h := bytes_append index (Bytes.ofWord64 n) rest
  rw [Bytes.length_ofWord64] at h
  simp [word64, h]

theorem block_append (index : Nat) {bytes : List UInt8} (rest : List UInt8)
    (h : bytes.length ≤ Bytes.maxBlock) :
    (⟨index, Bytes.prefixed bytes ++ rest⟩ : Cursor).block =
      (some bytes, ⟨index + 2 + bytes.length, rest⟩) := by
  rw [Bytes.prefixed, List.append_assoc, block, word16_append]
  dsimp only
  rw [Bytes.toNat_length h, bytes_append]

theorem text_append (index : Nat) {text : String} (rest : List UInt8)
    (h : (Text.utf8 text).length ≤ Bytes.maxBlock) :
    (⟨index, Bytes.prefixed (Text.utf8 text) ++ rest⟩ : Cursor).text =
      (some text, ⟨index + 2 + (Text.utf8 text).length, rest⟩) := by
  simp [Cursor.text, block_append index rest h, Text.ofUtf8Lossy_utf8]

theorem bytes_short {index count : Nat} {rest : List UInt8} (h : rest.length < count) :
    (⟨index, rest⟩ : Cursor).bytes count = (none, ⟨index, rest⟩) := by
  have hshort : (rest.take count).length ≠ count := by
    rw [List.length_take]
    omega
  exact if_neg hshort

theorem word32_short (index : Nat) {n : Int32} {count : Nat}
    (h : count < (Bytes.ofWord32 n).length) :
    ((⟨index, (Bytes.ofWord32 n).take count⟩ : Cursor).word32).1 = none := by
  rw [Bytes.length_ofWord32] at h
  have hshort : ((Bytes.ofWord32 n).take count).length < 4 := by
    rw [List.length_take]
    omega
  rw [word32, bytes_short hshort]
  rfl

/-- Either the length of a block is cut or, if that can be read, its bytes. -/
theorem block_short (index : Nat) {bytes : List UInt8} (hfit : bytes.length ≤ Bytes.maxBlock)
    {count : Nat} (h : count < (Bytes.prefixed bytes).length) :
    ((⟨index, (Bytes.prefixed bytes).take count⟩ : Cursor).block).1 = none := by
  rw [Bytes.prefixed, List.length_append, Bytes.length_ofWord16] at h
  rw [Bytes.prefixed, List.take_append, Bytes.length_ofWord16]
  by_cases hlength : count < 2
  · have hshort : ((Bytes.ofWord16 (UInt16.ofNat bytes.length)).take count ++
        bytes.take (count - 2)).length < 2 := by
      rw [List.length_append, List.length_take, List.length_take, Bytes.length_ofWord16]
      omega
    simp [block, word16, bytes_short hshort]
  · have hshort : (bytes.take (count - 2)).length < bytes.length := by
      rw [List.length_take]
      omega
    rw [List.take_of_length_le (by rw [Bytes.length_ofWord16]; omega), block, word16_append]
    dsimp only
    rw [Bytes.toNat_length hfit, bytes_short hshort]

theorem text_short (index : Nat) {text : String}
    (hfit : (Text.utf8 text).length ≤ Bytes.maxBlock) {count : Nat}
    (h : count < (Bytes.prefixed (Text.utf8 text)).length) :
    ((⟨index, (Bytes.prefixed (Text.utf8 text)).take count⟩ : Cursor).text).1 = none := by
  simp [Cursor.text, block_short index hfit h]

end Cursor
end SimpleBinary
