import SimpleBinary.Value.Literal
import SimpleBinary.Proofs.Value.Element

/-! Literals give nothing but values of their primitive: an integer within its
range, a double of its width, or for an array of characters as many bytes as
the array has. -/
namespace SimpleBinary.Value

/-- The values that one element of a primitive may have, at its width. -/
inductive OfPrimitive : Primitive → Value → Prop where
  | long {p : Primitive} {n : Int64} : Holds p n → OfPrimitive p (.long n p.size)
  | double {d : Double} : OfPrimitive .double (.double d 8)
  /-- Under `float` only what a single widens to. -/
  | single {bits : UInt32} : OfPrimitive .float (.double (.ofSingleBits bits) 4)

theorem holds_of_wide {primitive : Primitive} (n : Int64)
    (hwide : primitive = .int64 ∨ primitive = .uint64) : Holds primitive n := by
  have hmin := Int64.le_toInt n
  have hmax := Int64.toInt_lt n
  rcases hwide with rfl | rfl <;> simp only [Holds, machineRange] <;> omega

theorem holds_ofInt {primitive : Primitive} {n : Int} (hchar : primitive ≠ .char)
    (hinteger : primitive.isFloating = false)
    (hlow : (range primitive).1 ≤ n) (hhigh : n ≤ (range primitive).2) :
    Holds primitive (Int64.ofInt n) := by
  by_cases hwide : primitive = .int64 ∨ primitive = .uint64
  · exact holds_of_wide _ hwide
  · have hrange : range primitive = machineRange primitive := by
      cases primitive <;> first | rfl | simp_all [Primitive.isFloating]
    have hbounds : -9223372036854775808 ≤ (machineRange primitive).1 ∧
        (machineRange primitive).2 ≤ 9223372036854775807 := by
      cases primitive <;> decide
    rw [hrange] at hlow hhigh
    have hback : (Int64.ofInt n).toInt = n := Int64.toInt_ofInt_of_le (by omega) (by omega)
    rw [Holds, hback]
    exact ⟨hlow, hhigh⟩

theorem ofPrimitive_of_literal {text : String} {primitive : Primitive} {value : Value}
    (h : ofLiteral text primitive = .ok value) : OfPrimitive primitive value := by
  unfold ofLiteral at h
  cases primitive with
  | char =>
    dsimp only at h
    split at h
    · next byte hbytes =>
      cases h
      have hbyte : (Int64.ofNat byte.toNat).toInt = byte.toNat := by
        rw [← Int64.ofInt_eq_ofNat]
        have hlt := byte.toNat_lt
        exact Int64.toInt_ofInt_of_le (by omega) (by omega)
      have hlt := byte.toNat_lt
      refine .long ?_
      rw [Holds, hbyte]
      simp only [machineRange]
      omega
    · cases h
  | float =>
    dsimp only at h
    split at h
    · next hread =>
      cases h
      obtain ⟨d, hd, rfl⟩ := Option.map_eq_some_iff.mp hread
      obtain ⟨literal, -, rfl⟩ := Option.map_eq_some_iff.mp hd
      exact .single
    · cases h
  | double =>
    dsimp only at h
    split at h
    · next hread =>
      cases h
      obtain ⟨d, -, rfl⟩ := Option.map_eq_some_iff.mp hread
      exact .double
    · cases h
  | _ =>
    dsimp only at h
    split at h
    · next hread =>
      cases h
      obtain ⟨n, -, hn⟩ := Option.bind_eq_some_iff.mp hread
      split at hn
      · next hrange =>
        cases hn
        exact .long (holds_ofInt (by decide) rfl hrange.1 hrange.2)
      · cases hn
    · cases h

theorem bytes_of_arrayLiteral {text characterEncoding : String} {length : Nat} {value : Value}
    (hlength : length ≠ 1) (h : ofArrayLiteral text length characterEncoding = .ok value) :
    ∃ content, value = .bytes content characterEncoding ∧ content.length = length := by
  unfold ofArrayLiteral at h
  rw [if_neg hlength] at h
  dsimp only at h
  split at h
  · cases h
  · cases h
    refine ⟨_, rfl, ?_⟩
    rw [List.length_append, List.length_replicate]
    omega

theorem ofPrimitive_nullValue (primitive : Primitive) :
    OfPrimitive primitive primitive.nullValue := by
  cases primitive with
  | double => exact .double
  | float => exact @OfPrimitive.single 0x7FC00000
  | _ => exact .long (by decide)

end SimpleBinary.Value
