import SimpleBinary.Value
import SimpleBinary.Proofs.Value.Widening

/-! Elements of a primitive type on the wire. Every value that an element can
hold is read back from its bytes, in either order of the bytes and with
anything around them; and every element holds such a value, which is written
as the bytes that it was read from. -/
namespace SimpleBinary

theorem Primitive.size_pos (primitive : Primitive) : 0 < primitive.size := by
  cases primitive <;> decide

namespace Bytes

/-- What lies above the width of a word does not show in its bytes. -/
theorem ofNat_mod (width n : Nat) : ofNat width (n % Nat.pow 256 width) = ofNat width n := by
  have h := ofNat_toNat (ofNat width n)
  rwa [length_ofNat, toNat_ofNat] at h

end Bytes

namespace Value

/-- The least and the greatest integer that an element of a primitive can
hold. Of 64 bits every pattern is one; a floating point type holds none. -/
def machineRange : Primitive → Int × Int
  | .char | .uint8 => (0, 255)
  | .int8 => (-128, 127)
  | .int16 => (-32768, 32767)
  | .uint16 => (0, 65535)
  | .int32 => (-2147483648, 2147483647)
  | .uint32 => (0, 4294967295)
  | .int64 | .uint64 => (-9223372036854775808, 9223372036854775807)
  | .float | .double => (0, -1)

def Holds (primitive : Primitive) (n : Int64) : Prop :=
  (machineRange primitive).1 ≤ n.toInt ∧ n.toInt ≤ (machineRange primitive).2

instance (primitive : Primitive) (n : Int64) : Decidable (Holds primitive n) :=
  inferInstanceAs (Decidable (_ ∧ _))

theorem Holds.not_floating {primitive : Primitive} {n : Int64} (h : Holds primitive n) :
    primitive.isFloating = false := by
  obtain ⟨hlow, hhigh⟩ := h
  cases primitive <;> simp only [machineRange] at hlow hhigh <;> first | rfl | omega

theorem toInt_eq_of_bits (n : Int64) :
    n.toInt = if n.toUInt64.toNat < 9223372036854775808 then (n.toUInt64.toNat : Int)
      else n.toUInt64.toNat - 18446744073709551616 := by
  have h : n.toInt = if 2 * n.toUInt64.toNat < 18446744073709551616 then (n.toUInt64.toNat : Int)
      else (n.toUInt64.toNat : Int) - 18446744073709551616 :=
    BitVec.toInt_eq_toNat_cond n.toBitVec
  rw [h]
  split <;> split <;> omega

theorem ofNat_toUInt64 (n : Int64) : Int64.ofNat n.toUInt64.toNat = n :=
  Int64.ofNat_bitVecToNat n.toBitVec

/-- The low bits of an integer, read at the width of a primitive that can
hold it, are the integer again. -/
theorem ofBits_toUInt64 {primitive : Primitive} {n : Int64} (h : Holds primitive n) :
    ofBits primitive (n.toUInt64.toNat % Nat.pow 256 primitive.size) = .long n primitive.size := by
  have hbits := toInt_eq_of_bits n
  have hbound : n.toUInt64.toNat < 18446744073709551616 := n.toUInt64.toNat_lt
  obtain ⟨hlow, hhigh⟩ := h
  cases primitive with
  | float | double =>
    simp only [machineRange] at hlow hhigh
    omega
  | char | int64 | uint8 | uint16 | uint32 | uint64 =>
    simp only [machineRange] at hlow hhigh
    simp only [ofBits, Primitive.size, Nat.pow_eq, Nat.reducePow]
    rw [Nat.mod_eq_of_lt (by omega), ofNat_toUInt64]
  | int8 | int16 | int32 =>
    simp only [machineRange] at hlow hhigh
    have hback := Int64.ofInt_toInt n
    refine congrArg (Value.long · _) (Eq.trans (congrArg Int64.ofInt ?_) hback)
    simp only [signed, Primitive.size, Nat.pow_eq, Nat.reducePow, Nat.reduceMul, Nat.reduceSub,
      Nat.reduceShiftLeft]
    omega

private theorem toInt_ofInt {n : Int} (hlow : -9223372036854775808 ≤ n)
    (hhigh : n ≤ 9223372036854775807) : (Int64.ofInt n).toInt = n :=
  Int64.toInt_ofInt_of_le (by omega) (by omega)

/-- Whatever the bits of an element, its primitive holds the integer in them. -/
theorem holds_ofBits {primitive : Primitive} {bits : Nat}
    (hbits : bits < Nat.pow 256 primitive.size) (hinteger : primitive.isFloating = false) :
    ∃ n, ofBits primitive bits = .long n primitive.size ∧ Holds primitive n := by
  cases primitive with
  | float | double => simp [Primitive.isFloating] at hinteger
  | char | uint8 | uint16 | uint32 =>
    simp only [Primitive.size, Nat.pow_eq, Nat.reducePow] at hbits
    refine ⟨_, rfl, ?_⟩
    rw [Holds, ← Int64.ofInt_eq_ofNat, toInt_ofInt (by omega) (by omega)]
    simp only [machineRange]
    omega
  | int64 | uint64 =>
    refine ⟨_, rfl, ?_⟩
    have hlow := Int64.le_toInt (Int64.ofNat bits)
    have hhigh := Int64.toInt_lt (Int64.ofNat bits)
    simp only [Holds, machineRange]
    omega
  | int8 | int16 | int32 =>
    simp only [Primitive.size, Nat.pow_eq, Nat.reducePow] at hbits
    refine ⟨_, rfl, ?_⟩
    simp only [Holds, machineRange, signed, Primitive.size, Nat.reduceMul, Nat.reduceSub,
      Nat.reduceShiftLeft]
    rw [toInt_ofInt (by omega) (by omega)]
    omega

/-- Widening the bits of an element, by zeros or by its sign, keeps them as the
low bits of the integer. -/
theorem low_bits_ofBits {primitive : Primitive} {bits : Nat} {n : Int64} {size : Nat}
    (hbits : bits < Nat.pow 256 primitive.size) (h : ofBits primitive bits = .long n size) :
    n.toUInt64.toNat % Nat.pow 256 primitive.size = bits := by
  have hpattern := toInt_eq_of_bits n
  cases primitive with
  | float | double => cases h
  | char | int64 | uint8 | uint16 | uint32 | uint64 =>
    cases h
    simp only [Primitive.size, Nat.pow_eq, Nat.reducePow] at hbits ⊢
    rw [Int64.toUInt64_ofNat', UInt64.toNat_ofNat']
    omega
  | int8 | int16 | int32 =>
    obtain ⟨hn, -⟩ := Value.long.inj h
    simp only [signed, Primitive.size, Nat.reduceMul, Nat.reduceSub, Nat.reduceShiftLeft] at hn
    simp only [Primitive.size, Nat.pow_eq, Nat.reducePow] at hbits ⊢
    have hinteger := congrArg Int64.toInt hn
    rw [toInt_ofInt (by omega) (by omega)] at hinteger
    omega

theorem read?_append {bytes : List UInt8} {primitive : Primitive} (front behind : List UInt8)
    (order : ByteOrder) (h : bytes.length = primitive.size) :
    read? (front ++ (bytes ++ behind)) front.length primitive order =
      some (ofBits primitive (Bytes.toNat (Bytes.arrange order bytes))) := by
  unfold read?
  rw [if_pos (by simp only [List.length_append]; omega), List.drop_left, ← h, List.take_left]

theorem toBytes_long {primitive : Primitive} (n : Int64) (order : ByteOrder) :
    (Value.long n primitive.size).toBytes order =
      Bytes.arrange order (Bytes.ofNat primitive.size n.toUInt64.toNat) := by
  have hsize : min primitive.size 8 = primitive.size := by cases primitive <;> rfl
  rw [toBytes, hsize]

@[simp] theorem length_toBytes_long (primitive : Primitive) (n : Int64) (order : ByteOrder) :
    ((Value.long n primitive.size).toBytes order).length = primitive.size := by
  rw [toBytes_long, Bytes.length_arrange, Bytes.length_ofNat]

theorem read?_long {primitive : Primitive} {n : Int64} (front behind : List UInt8)
    (order : ByteOrder) (h : Holds primitive n) :
    read? (front ++ ((Value.long n primitive.size).toBytes order ++ behind)) front.length
      primitive order = some (.long n primitive.size) := by
  rw [read?_append front behind order (length_toBytes_long primitive n order), toBytes_long,
    Bytes.arrange_arrange, Bytes.toNat_ofNat, ofBits_toUInt64 h]

@[simp] theorem length_toBytes_double (d : Double) (primitive : Primitive) (order : ByteOrder)
    (h : primitive.isFloating) :
    ((Value.double d primitive.size).toBytes order).length = primitive.size := by
  cases primitive <;> simp_all [Primitive.isFloating, toBytes, Primitive.size]

theorem read?_double (d : Double) (front behind : List UInt8) (order : ByteOrder) :
    read? (front ++ ((Value.double d Primitive.double.size).toBytes order ++ behind)) front.length
      .double order = some (.double d Primitive.double.size) := by
  have hbound : d.bits.toNat < Nat.pow 256 8 := d.bits.toNat_lt
  rw [read?_append front behind order (length_toBytes_double d .double order rfl)]
  simp only [toBytes, Primitive.size, Nat.reduceEqDiff, if_false, Bytes.arrange_arrange,
    Bytes.toNat_ofNat, ofBits, Nat.mod_eq_of_lt hbound, UInt64.ofNat_toNat]

theorem read?_single (bits : UInt32) (front behind : List UInt8) (order : ByteOrder) :
    read? (front ++ ((Value.double (.ofSingleBits bits) Primitive.float.size).toBytes order ++
      behind)) front.length .float order =
      some (.double (.ofSingleBits bits) Primitive.float.size) := by
  have hbound : (Double.ofSingleBits bits).toSingleBits.toNat < Nat.pow 256 4 :=
    (Double.ofSingleBits bits).toSingleBits.toNat_lt
  rw [read?_append front behind order (length_toBytes_double _ .float order rfl)]
  simp only [toBytes, Primitive.size, if_true, Bytes.arrange_arrange, Bytes.toNat_ofNat, ofBits,
    Nat.mod_eq_of_lt hbound, UInt32.ofNat_toNat, Double.ofSingleBits_toSingleBits_ofSingleBits]

/-- Whatever bytes an element has, they are those of its value. Singles are left
out, since not every pattern of theirs survives being widened. -/
theorem toBytes_ofBits {primitive : Primitive} {bytes : List UInt8} (order : ByteOrder)
    (hsingle : primitive ≠ .float) (hlength : bytes.length = primitive.size) :
    (ofBits primitive (Bytes.toNat (Bytes.arrange order bytes))).toBytes order = bytes := by
  have hwidth : (Bytes.arrange order bytes).length = primitive.size := by
    rw [Bytes.length_arrange, hlength]
  have hbits := Bytes.toNat_lt (Bytes.arrange order bytes)
  have hback := Bytes.ofNat_toNat (Bytes.arrange order bytes)
  rw [hwidth] at hbits hback
  cases primitive with
  | float => exact absurd rfl hsingle
  | double =>
    have hsame : (UInt64.ofNat (Bytes.toNat (Bytes.arrange order bytes))).toNat =
        Bytes.toNat (Bytes.arrange order bytes) := by
      rw [UInt64.toNat_ofNat']
      exact Nat.mod_eq_of_lt hbits
    simp only [Primitive.size] at hback
    simp only [ofBits, toBytes, Primitive.size, Nat.reduceEqDiff, if_false, hsame, hback,
      Bytes.arrange_arrange]
  | _ =>
    obtain ⟨n, hn, -⟩ := holds_ofBits hbits rfl
    have hlow := low_bits_ofBits hbits hn
    rw [hn, toBytes_long, ← Bytes.ofNat_mod, hlow, hback, Bytes.arrange_arrange]

theorem read?_eq_none_iff {data : List UInt8} {offset : Nat} {primitive : Primitive}
    {order : ByteOrder} :
    read? data offset primitive order = none ↔ data.length < offset + primitive.size := by
  unfold read?
  split
  · next hinside =>
    simp
    omega
  · next houtside =>
    simp
    omega

theorem toBytes_of_read? {data : List UInt8} {offset : Nat} {primitive : Primitive}
    {order : ByteOrder} {value : Value} (hsingle : primitive ≠ .float)
    (h : read? data offset primitive order = some value) :
    value.toBytes order = (data.drop offset).take primitive.size := by
  unfold read? at h
  split at h
  · next hinside =>
    cases h
    apply toBytes_ofBits order hsingle
    rw [List.length_take, List.length_drop]
    omega
  · cases h

/-- Reading and writing an element undo each other, in either order of the
bytes. Every integer in the range of a primitive is read back from its bytes,
wherever they stand. An element is read wherever there is room for it, and
written back as the bytes that were there; of floating point types this holds
of doubles, by their patterns. -/
theorem element_inverse (primitive : Primitive) (order : ByteOrder) :
    (∀ n, Holds primitive n → ∀ front behind : List UInt8,
      read? (front ++ (Value.long n primitive.size).toBytes order ++ behind) front.length
        primitive order = some (.long n primitive.size)) ∧
    (primitive ≠ .float → ∀ (data : List UInt8) (offset : Nat),
      (read? data offset primitive order = none ↔ data.length < offset + primitive.size) ∧
      ∀ value, read? data offset primitive order = some value →
        value.toBytes order = (data.drop offset).take primitive.size) := by
  constructor
  · intro n hn front behind
    rw [List.append_assoc]
    exact read?_long front behind order hn
  · intro hsingle data offset
    exact ⟨read?_eq_none_iff, fun value hvalue => toBytes_of_read? hsingle hvalue⟩

/-- A negative number of two bytes, the higher one first, and bytes that end
within such a number. -/
theorem element_inverse_int16 :
    Holds .int16 (-2) ∧ Primitive.int16 ≠ .float ∧
      read? ([7] ++ (Value.long (-2) 2).toBytes .big ++ [9, 9]) 1 .int16 .big =
        some (.long (-2) 2) ∧
      read? [7, 0xFF] 1 .int16 .big = none ∧
      ∀ value, read? [7, 0xFF, 0xFE] 1 .int16 .big = some value →
        value.toBytes .big = [0xFF, 0xFE] := by
  have hholds : Holds .int16 (-2) := by decide
  obtain ⟨hreads, hwrites⟩ := element_inverse .int16 .big
  have hsingle : Primitive.int16 ≠ .float := by decide
  exact ⟨hholds, hsingle, hreads _ hholds [7] [9, 9],
    (hwrites hsingle [7, 0xFF] 1).1.mpr (by decide), (hwrites hsingle [7, 0xFF, 0xFE] 1).2⟩

end Value
end SimpleBinary
