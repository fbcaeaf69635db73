import SimpleBinary.Primitive

/-! Words of a given number of bytes. The least significant byte comes first,
or last in big endian order. -/
namespace SimpleBinary.Bytes

def ofNat : (width : Nat) → Nat → List UInt8
  | 0, _ => []
  | width + 1, n => UInt8.ofNat n :: ofNat width (n / 256)

def toNat : List UInt8 → Nat
  | [] => 0
  | byte :: rest => byte.toNat + 256 * toNat rest

@[simp] theorem length_ofNat (width n : Nat) : (ofNat width n).length = width := by
  induction width generalizing n with
  | zero => rfl
  | succ width ih => simp [ofNat, ih]

theorem pow256_succ (width : Nat) : Nat.pow 256 (width + 1) = 256 * Nat.pow 256 width :=
  Nat.mul_comm _ _

theorem toNat_ofNat (width n : Nat) : toNat (ofNat width n) = n % Nat.pow 256 width := by
  induction width generalizing n with
  | zero => simp [ofNat, toNat, Nat.mod_one]
  | succ width ih =>
    simp only [ofNat, toNat, ih, UInt8.toNat_ofNat']
    rw [pow256_succ, Nat.mod_mul]

theorem toNat_lt (bytes : List UInt8) : toNat bytes < Nat.pow 256 bytes.length := by
  induction bytes with
  | nil => simp [toNat]
  | cons byte rest ih =>
    have := byte.toNat_lt
    simp only [toNat, List.length_cons, pow256_succ]
    omega

@[simp] theorem ofNat_toNat (bytes : List UInt8) : ofNat bytes.length (toNat bytes) = bytes := by
  induction bytes with
  | nil => rfl
  | cons byte rest ih =>
    have bound := byte.toNat_lt
    have quotient : (byte.toNat + 256 * toNat rest) / 256 = toNat rest := by omega
    have low : UInt8.ofNat (byte.toNat + 256 * toNat rest) = byte := by
      apply UInt8.toNat_inj.mp
      simp only [UInt8.toNat_ofNat']
      omega
    simp only [List.length_cons, toNat, ofNat, quotient, ih, low]

/-- Between little endian order and the given one, either way. -/
def arrange : ByteOrder → List UInt8 → List UInt8
  | .little, bytes => bytes
  | .big, bytes => bytes.reverse

@[simp] theorem arrange_arrange (order : ByteOrder) (bytes : List UInt8) :
    arrange order (arrange order bytes) = bytes := by
  cases order <;> simp [arrange]

@[simp] theorem length_arrange (order : ByteOrder) (bytes : List UInt8) :
    (arrange order bytes).length = bytes.length := by
  cases order <;> simp [arrange]

def ofWord16 (n : UInt16) : List UInt8 := ofNat 2 n.toNat

def ofWord32 (n : Int32) : List UInt8 := ofNat 4 n.toUInt32.toNat

def ofWord64 (n : Int64) : List UInt8 := ofNat 8 n.toUInt64.toNat

def toWord16 (bytes : List UInt8) : UInt16 := UInt16.ofNat (toNat bytes)

def toWord32 (bytes : List UInt8) : Int32 := (UInt32.ofNat (toNat bytes)).toInt32

def toWord64 (bytes : List UInt8) : Int64 := (UInt64.ofNat (toNat bytes)).toInt64

@[simp] theorem toWord16_ofWord16 (n : UInt16) : toWord16 (ofWord16 n) = n := by
  have := n.toNat_lt
  simp only [toWord16, ofWord16, toNat_ofNat]
  rw [Nat.mod_eq_of_lt this]
  simp

@[simp] theorem toWord32_ofWord32 (n : Int32) : toWord32 (ofWord32 n) = n := by
  have := n.toUInt32.toNat_lt
  simp only [toWord32, ofWord32, toNat_ofNat]
  rw [Nat.mod_eq_of_lt this]
  simp

@[simp] theorem toWord64_ofWord64 (n : Int64) : toWord64 (ofWord64 n) = n := by
  have := n.toUInt64.toNat_lt
  simp only [toWord64, ofWord64, toNat_ofNat]
  rw [Nat.mod_eq_of_lt this]
  simp

end SimpleBinary.Bytes
