import SimpleBinary.Proofs.Record.Token
import SimpleBinary.Proofs.Token.Same

/-! Which values a record keeps. A kept value comes back with the width of
the primitive of its token; whatever is read from a record at all is kept. -/
namespace SimpleBinary.Record

/-- A value that its block gives back: an integer that the primitive holds, a
double of its width, or bytes that are not taken for an element. -/
inductive Kept : Option Primitive → Value → Prop where
  | long {p : Primitive} {n : Int64} {size : Nat} : Value.Holds p n → Kept (some p) (.long n size)
  | double {d : Double} {size : Nat} : Kept (some .double) (.double d size)
  /-- Under `float` only what a single widens to. -/
  | single {bits : UInt32} {size : Nat} : Kept (some .float) (.double (.ofSingleBits bits) size)
  | bytes {content : List UInt8} {characterEncoding : String} :
      content ≠ [] → Kept none (.bytes content characterEncoding)
  | chars {content : List UInt8} {characterEncoding : String} :
      content ≠ [] → content.length ≠ 1 → Kept (some .char) (.bytes content characterEncoding)

theorem kept_long_iff {primitive : Option Primitive} {n : Int64} {size : Nat} :
    Kept primitive (.long n size) ↔ primitive.any (fun p => Value.Holds p n) = true := by
  constructor
  · rintro ⟨h⟩
    exact decide_eq_true h
  · intro h
    cases primitive with
    | none => cases h
    | some p => exact .long (of_decide_eq_true h)

theorem kept_double_iff {primitive : Option Primitive} {d : Double} {size : Nat} :
    Kept primitive (.double d size) ↔ primitive = some .double ∨
      primitive = some .float ∧ Double.ofSingleBits d.toSingleBits = d := by
  constructor
  · intro h
    cases h with
    | double => exact .inl rfl
    | single => exact .inr ⟨rfl, Double.ofSingleBits_toSingleBits_ofSingleBits _⟩
  · rintro (rfl | ⟨rfl, h⟩)
    · exact .double
    · rw [← h]
      exact .single

theorem kept_bytes_iff {primitive : Option Primitive} {content : List UInt8}
    {characterEncoding : String} :
    Kept primitive (.bytes content characterEncoding) ↔ content ≠ [] ∧
      (primitive = none ∨ primitive = some .char ∧ content.length ≠ 1) := by
  constructor
  · intro h
    cases h with
    | bytes hcontent => exact ⟨hcontent, .inl rfl⟩
    | chars hcontent hlength => exact ⟨hcontent, .inr ⟨rfl, hlength⟩⟩
  · rintro ⟨hcontent, rfl | ⟨rfl, hlength⟩⟩
    · exact .bytes hcontent
    · exact .chars hcontent hlength

instance (primitive : Option Primitive) : (value : Value) → Decidable (Kept primitive value)
  | .long _ _ => decidable_of_iff _ kept_long_iff.symm
  | .double _ _ => decidable_of_iff _ kept_double_iff.symm
  | .bytes _ _ => decidable_of_iff _ kept_bytes_iff.symm

def stored (primitive : Option Primitive) : Value → Value
  | .long n size => .long n ((primitive.map Primitive.size).getD size)
  | .double d size => .double d ((primitive.map Primitive.size).getD size)
  | .bytes content _ => .bytes content Value.defaultCharacterEncoding

@[simp] theorem stored_same (primitive : Option Primitive) (value : Value) :
    (stored primitive value).same value = true := by
  cases value <;> simp [stored, Value.same]

@[simp] theorem valueBlock_bytes (primitive : Option Primitive) (content : List UInt8)
    (characterEncoding : String) :
    valueBlock primitive (some (.bytes content characterEncoding)) = content := by
  cases primitive <;> rfl

theorem blockValue_of_element {p : Primitive} {bytes : List UInt8} {value : Value}
    (hlength : bytes.length = p.size) (hread : Value.read? bytes 0 p .little = some value) :
    Wide (some p) bytes ∧ blockValue (some p) bytes = some value := by
  have hpos := p.size_pos
  have hbytes : bytes ≠ [] := by
    intro hnil
    rw [hnil, List.length_nil] at hlength
    omega
  have hchar : p = .char → bytes.length = 1 := by
    rintro rfl
    exact hlength
  refine ⟨.inr (.inr (.inr ⟨p, rfl, by omega⟩)), ?_⟩
  rw [blockValue, valueOf_element .constValue hbytes hchar hread]

theorem blockValue_of_kept {primitive : Option Primitive} {value : Value}
    (h : Kept primitive value) :
    Wide primitive (valueBlock primitive (some value)) ∧
      blockValue primitive (valueBlock primitive (some value)) = some (stored primitive value) := by
  cases h with
  | @long p n size hholds =>
    have hread := Value.read?_long [] [] .little hholds
    rw [List.nil_append, List.append_nil] at hread
    have hblock : valueBlock (some p) (some (.long n size)) =
        (Value.long n p.size).toBytes .little := by
      simp [valueBlock, sizedFor, hholds.not_floating]
    rw [hblock]
    exact blockValue_of_element (Value.length_toBytes_long p n .little) hread
  | @double d size =>
    have hread := Value.read?_double d [] [] .little
    rw [List.nil_append, List.append_nil] at hread
    exact blockValue_of_element (Value.length_toBytes_double d .double .little rfl) hread
  | @single bits size =>
    have hread := Value.read?_single bits [] [] .little
    rw [List.nil_append, List.append_nil] at hread
    exact blockValue_of_element (Value.length_toBytes_double _ .float .little rfl) hread
  | bytes hcontent =>
    rw [valueBlock_bytes, blockValue, valueOf_bytes .constValue hcontent (.inl rfl)]
    exact ⟨.inr (.inl rfl), rfl⟩
  | chars hcontent hlength =>
    rw [valueBlock_bytes, blockValue, valueOf_bytes .constValue hcontent (.inr ⟨rfl, hlength⟩)]
    exact ⟨.inr (.inr (.inl rfl)), rfl⟩

theorem kept_of_read? {p : Primitive} {bytes : List UInt8} {value : Value}
    (h : Value.read? bytes 0 p .little = some value) :
    Kept (some p) value ∧ stored (some p) value = value := by
  unfold Value.read? at h
  split at h
  · next hlength =>
    have hbits : Bytes.toNat (Bytes.arrange .little ((bytes.drop 0).take p.size)) <
        Nat.pow 256 p.size := by
      have hlt := Bytes.toNat_lt (Bytes.arrange .little ((bytes.drop 0).take p.size))
      simpa [List.length_take, show min p.size bytes.length = p.size by omega] using hlt
    cases h
    by_cases hfloating : p.isFloating = false
    · obtain ⟨n, hvalue, hholds⟩ := Value.holds_ofBits hbits hfloating
      rw [hvalue]
      exact ⟨.long hholds, rfl⟩
    · cases p with
      | float => exact ⟨.single, rfl⟩
      | double => exact ⟨.double, rfl⟩
      | _ => exact absurd rfl hfloating
  · cases h

/-- Nothing is read from a block but what a record keeps. -/
theorem kept_of_valueOf {which : RecordPart} {primitive : Option Primitive} {bytes : List UInt8}
    {value : Value} (h : valueOf which primitive bytes = .ok (some value)) :
    Kept primitive value ∧ stored primitive value = value := by
  by_cases hempty : bytes = []
  · rw [hempty, valueOf_nil] at h
    cases h
  by_cases htext : primitive = none ∨ primitive = some .char ∧ bytes.length ≠ 1
  · rw [valueOf_bytes which hempty htext] at h
    cases h
    rcases htext with rfl | ⟨rfl, hlength⟩
    · exact ⟨.bytes hempty, rfl⟩
    · exact ⟨.chars hempty hlength, rfl⟩
  cases primitive with
  | none => exact absurd (.inl rfl) htext
  | some p =>
    have hguard : ¬ (p = .char ∧ bytes.length ≠ 1) := by
      rintro ⟨rfl, hlength⟩
      exact htext (.inr ⟨rfl, hlength⟩)
    simp only [valueOf, List.isEmpty_iff, hempty, hguard, if_false] at h
    split at h
    · next hread =>
      cases h
      exact kept_of_read? hread
    · cases h

theorem Kept.withCharacterEncoding {primitive : Option Primitive} {value : Value}
    (h : Kept primitive value) (characterEncoding : Option String) :
    Kept primitive (withCharacterEncoding characterEncoding value) := by
  cases characterEncoding <;> cases h <;> constructor <;> assumption

@[simp] theorem stored_withCharacterEncoding (primitive : Option Primitive)
    (characterEncoding : Option String) (value : Value) :
    stored primitive (withCharacterEncoding characterEncoding value) = stored primitive value := by
  cases value <;> cases characterEncoding <;> rfl

@[simp] theorem withCharacterEncoding_same (characterEncoding : Option String) (a b : Value) :
    (withCharacterEncoding characterEncoding a).same b = a.same b := by
  cases a <;> cases b <;> cases characterEncoding <;> rfl

def values (token : Token) : List Value :=
  [token.encoding.constValue, token.encoding.minValue, token.encoding.maxValue,
    token.encoding.nullValue].filterMap id

def texts (token : Token) : List (Option String) :=
  [token.description, token.encoding.characterEncoding, token.encoding.epoch,
    token.encoding.timeUnit, token.encoding.semanticType]

structure Faithful (token : Token) : Prop where
  kept : ∀ value ∈ values token, Kept token.encoding.primitive value
  nonempty : some "" ∉ texts token

instance (token : Token) : Decidable (Faithful token) :=
  decidable_of_iff ((∀ value ∈ values token, Kept token.encoding.primitive value) ∧
    some "" ∉ texts token) ⟨fun h => ⟨h.1, h.2⟩, fun h => ⟨h.kept, h.nonempty⟩⟩

theorem mem_values {token : Token} {value : Value} :
    value ∈ values token ↔ token.encoding.constValue = some value ∨
      token.encoding.minValue = some value ∨ token.encoding.maxValue = some value ∨
      token.encoding.nullValue = some value := by
  simp [values, eq_comm]

theorem faithful_iff {token : Token} :
    Faithful token ↔
      ((∀ value ∈ token.encoding.constValue, Kept token.encoding.primitive value) ∧
        (∀ value ∈ token.encoding.minValue, Kept token.encoding.primitive value) ∧
        (∀ value ∈ token.encoding.maxValue, Kept token.encoding.primitive value) ∧
        ∀ value ∈ token.encoding.nullValue, Kept token.encoding.primitive value) ∧
      token.description ≠ some "" ∧ token.encoding.characterEncoding ≠ some "" ∧
      token.encoding.epoch ≠ some "" ∧ token.encoding.timeUnit ≠ some "" ∧
      token.encoding.semanticType ≠ some "" := by
  have htexts : some "" ∉ texts token ↔ token.description ≠ some "" ∧
      token.encoding.characterEncoding ≠ some "" ∧ token.encoding.epoch ≠ some "" ∧
      token.encoding.timeUnit ≠ some "" ∧ token.encoding.semanticType ≠ some "" := by
    simp [texts, eq_comm]
  rw [← htexts]
  constructor
  · rintro ⟨hkept, hnonempty⟩
    simp only [mem_values] at hkept
    refine ⟨⟨?_, ?_, ?_, ?_⟩, hnonempty⟩ <;> intro value hvalue <;> apply hkept
    · exact .inl hvalue
    · exact .inr (.inl hvalue)
    · exact .inr (.inr (.inl hvalue))
    · exact .inr (.inr (.inr hvalue))
  · rintro ⟨⟨hconst, hmin, hmax, hnull⟩, hnonempty⟩
    refine ⟨fun value hvalue => ?_, hnonempty⟩
    rcases mem_values.mp hvalue with h | h | h | h
    · exact hconst value h
    · exact hmin value h
    · exact hmax value h
    · exact hnull value h

theorem blockValue_of_values {primitive : Option Primitive} {value : Option Value}
    (h : ∀ v, value = some v → Kept primitive v) :
    Wide primitive (valueBlock primitive value) ∧
      blockValue primitive (valueBlock primitive value) = value.map (stored primitive) := by
  cases value with
  | none => exact ⟨.inl rfl, rfl⟩
  | some v => exact blockValue_of_kept (h v rfl)

theorem wideValues_of_kept {token : Token}
    (h : ∀ value ∈ values token, Kept token.encoding.primitive value) : WideValues token where
  const := (blockValue_of_values fun v hv => h v (mem_values.mpr (.inl hv))).1
  min := (blockValue_of_values fun v hv => h v (mem_values.mpr (.inr (.inl hv)))).1
  max := (blockValue_of_values fun v hv => h v (mem_values.mpr (.inr (.inr (.inl hv))))).1
  null := (blockValue_of_values fun v hv => h v (mem_values.mpr (.inr (.inr (.inr hv))))).1

/-- A token of kept values comes back with those values at their stored width. -/
theorem reread_of_faithful {token : Token} (h : Faithful token) :
    reread token = { token with
      encoding := { token.encoding with
        minValue := token.encoding.minValue.map (stored token.encoding.primitive)
        maxValue := token.encoding.maxValue.map (stored token.encoding.primitive)
        nullValue := token.encoding.nullValue.map (stored token.encoding.primitive)
        constValue := (token.encoding.constValue.map (stored token.encoding.primitive)).map
          (withCharacterEncoding token.encoding.characterEncoding) } } := by
  obtain ⟨⟨hconst, hmin, hmax, hnull⟩, hdescription, hcharacters, hepoch, hunit, hsemantic⟩ :=
    faithful_iff.mp h
  have hconst := (blockValue_of_values hconst).2
  have hmin := (blockValue_of_values hmin).2
  have hmax := (blockValue_of_values hmax).2
  have hnull := (blockValue_of_values hnull).2
  simp only [reread, hconst, hmin, hmax, hnull, keptText, hdescription, hcharacters, hepoch, hunit,
    hsemantic, if_false]

theorem reread_same {token : Token} (h : Faithful token) : (reread token == token) = true := by
  rw [reread_of_faithful h, Token.beq_iff]
  refine ⟨rfl, rfl, rfl, rfl, rfl, rfl, rfl, rfl, rfl, rfl, ?_⟩
  rw [Encoding.beq_iff]
  refine ⟨rfl, rfl, rfl, ?_, ?_, ?_, ?_, rfl, rfl, rfl, rfl⟩
  · cases token.encoding.minValue <;> simp
  · cases token.encoding.maxValue <;> simp
  · cases token.encoding.nullValue <;> simp
  · cases token.encoding.constValue <;> simp

theorem reread_byte {token : Token} {byte : UInt8} {characterEncoding : String}
    (hprimitive : token.encoding.primitive = some .char)
    (hconst : token.encoding.constValue = some (.bytes [byte] characterEncoding)) :
    (reread token == token) = false := by
  have hread : ∃ n size, blockValue (some .char) [byte] = some (.long n size) := by
    have hbits : Bytes.toNat (Bytes.arrange .little [byte]) < Nat.pow 256 Primitive.char.size :=
      Bytes.toNat_lt [byte]
    obtain ⟨n, hn, -⟩ := Value.holds_ofBits hbits rfl
    have hread := Value.read?_append [] [] .little
      (show [byte].length = Primitive.char.size from rfl)
    exact ⟨n, _, hn ▸ (blockValue_of_element rfl hread).2⟩
  obtain ⟨n, size, hread⟩ := hread
  have hback : (reread token).encoding.constValue = some (.long n size) := by
    unfold reread
    dsimp only
    rw [hprimitive, hconst, valueBlock_bytes, hread]
    cases keptText token.encoding.characterEncoding <;> rfl
  apply Bool.eq_false_iff.mpr
  intro hsame
  obtain ⟨-, -, -, -, -, -, hvalue, -⟩ := (Encoding.beq_iff _ _).mp
    ((Token.beq_iff _ _).mp hsame).2.2.2.2.2.2.2.2.2.2
  rw [hback, hconst] at hvalue
  cases hvalue

theorem ne_empty_of_decodeText {which : RecordPart} {cursor next : Cursor} {text : Option String}
    (h : (decodeText which).run cursor = .ok (text, next)) : text ≠ some "" := by
  obtain ⟨content, after, -, hresult⟩ := run_bind_eq_ok h
  cases hresult
  split
  · nofun
  · next hempty =>
    intro hsome
    cases hsome
    exact hempty rfl

theorem kept_of_decodeValue {which : RecordPart} {primitive : Option Primitive}
    {cursor next : Cursor} {value : Option Value}
    (h : (decodeValue which primitive).run cursor = .ok (value, next)) :
    ∀ v, value = some v → Kept primitive v ∧ stored primitive v = v := by
  obtain ⟨bytes, after, -, hresult⟩ := run_bind_eq_ok h
  rintro v rfl
  change (valueOf which primitive bytes).bind _ = _ at hresult
  cases hvalue : valueOf which primitive bytes with
  | error error =>
    rw [hvalue] at hresult
    cases hresult
  | ok value =>
    rw [hvalue] at hresult
    cases hresult
    exact kept_of_valueOf hvalue

theorem map_stored_eq {primitive : Option Primitive} {value : Option Value}
    (h : ∀ v, value = some v → Kept primitive v ∧ stored primitive v = v) :
    value.map (stored primitive) = value := by
  cases value with
  | none => rfl
  | some v => exact congrArg some (h v rfl).2

/-- Whatever token is read, it is written and read again as it is. -/
theorem faithful_of_decodeToken {cursor next : Cursor} {token : Token}
    (h : decodeToken.run cursor = .ok (token, next)) :
    Faithful token ∧ reread token = token := by
  unfold decodeToken at h
  obtain ⟨offset, _, -, h⟩ := run_bind_eq_ok h
  obtain ⟨size, _, -, h⟩ := run_bind_eq_ok h
  obtain ⟨id, _, -, h⟩ := run_bind_eq_ok h
  obtain ⟨refId, _, -, h⟩ := run_bind_eq_ok h
  obtain ⟨version, _, -, h⟩ := run_bind_eq_ok h
  obtain ⟨deprecated, _, -, h⟩ := run_bind_eq_ok h
  obtain ⟨count, _, -, h⟩ := run_bind_eq_ok h
  obtain ⟨signal, _, -, h⟩ := run_bind_eq_ok h
  obtain ⟨ordinal, _, -, h⟩ := run_bind_eq_ok h
  obtain ⟨byteOrder, _, -, h⟩ := run_bind_eq_ok h
  obtain ⟨presence, _, -, h⟩ := run_bind_eq_ok h
  obtain ⟨name, _, -, h⟩ := run_bind_eq_ok h
  obtain ⟨constValue, _, hconst, h⟩ := run_bind_eq_ok h
  obtain ⟨minValue, _, hmin, h⟩ := run_bind_eq_ok h
  obtain ⟨maxValue, _, hmax, h⟩ := run_bind_eq_ok h
  obtain ⟨nullValue, _, hnull, h⟩ := run_bind_eq_ok h
  obtain ⟨characterEncoding, _, hcharacters, h⟩ := run_bind_eq_ok h
  obtain ⟨epoch, _, hepoch, h⟩ := run_bind_eq_ok h
  obtain ⟨timeUnit, _, hunit, h⟩ := run_bind_eq_ok h
  obtain ⟨semanticType, _, hsemantic, h⟩ := run_bind_eq_ok h
  obtain ⟨description, _, hdescription, h⟩ := run_bind_eq_ok h
  have htoken := (Prod.mk.inj (Except.ok.inj h)).1
  have hconst := kept_of_decodeValue hconst
  have hmin := kept_of_decodeValue hmin
  have hmax := kept_of_decodeValue hmax
  have hnull := kept_of_decodeValue hnull
  have hfaithful : Faithful token := by
    rw [← htoken]
    refine faithful_iff.mpr ⟨⟨?_, fun v hv => (hmin v hv).1, fun v hv => (hmax v hv).1,
      fun v hv => (hnull v hv).1⟩, ne_empty_of_decodeText hdescription,
      ne_empty_of_decodeText hcharacters, ne_empty_of_decodeText hepoch,
      ne_empty_of_decodeText hunit, ne_empty_of_decodeText hsemantic⟩
    intro value hvalue
    obtain ⟨v, hv, rfl⟩ := Option.map_eq_some_iff.mp hvalue
    exact (hconst v hv).1.withCharacterEncoding _
  refine ⟨hfaithful, ?_⟩
  have hstored : (constValue.map (withCharacterEncoding characterEncoding)).map
      (stored (Primitive.ofOrdinal? ordinal)) = constValue := by
    calc _ = constValue.map (stored (Primitive.ofOrdinal? ordinal)) := by
          cases constValue <;> simp
      _ = constValue := map_stored_eq hconst
  rw [reread_of_faithful hfaithful, ← htoken]
  simp only [map_stored_eq hmin, map_stored_eq hmax, map_stored_eq hnull, hstored]

end SimpleBinary.Record
