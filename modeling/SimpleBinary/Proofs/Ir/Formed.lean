import SimpleBinary.Proofs.Ir.Generated
import SimpleBinary.Proofs.Record.Kept

/-! The tokens of a valid schema in a record. It keeps the tokens of a type
and the ends of a message; it keeps those of a field unless they refer to a
value by a single byte, which is read back as a number. -/
namespace SimpleBinary

namespace Record

theorem kept_of_ofPrimitive {primitive : Primitive} {value : Value}
    (h : Value.OfPrimitive primitive value) : Kept (some primitive) value := by
  cases h with
  | long hholds => exact .long hholds
  | double => exact .double
  | single => exact .single

theorem kept_of_hasConstant {type : EncodedType} {value : Value} (h : type.HasConstant value) :
    Kept (some type.primitive) value := by
  unfold EncodedType.HasConstant at h
  split at h
  · next hchars =>
    obtain ⟨content, characterEncoding, rfl, hlength⟩ := h
    rw [hchars.1]
    refine kept_bytes_iff.mpr ⟨fun hnil => ?_, .inr ⟨rfl, ?_⟩⟩
    · rw [hnil] at hlength
      exact absurd hlength (by simp only [List.length_nil]; omega)
    · omega
  · exact kept_of_ofPrimitive h

end Record

namespace Generate
open Record (Faithful Kept WideValues)

def Formed (order : ByteOrder) (token : Token) : Prop :=
  Faithful token ∧ (token.signal = .encoding → token.encoding.byteOrder = order)

theorem description_ne_empty {type : TypeInfo} {field : Option FieldInfo}
    (htype : type.description ≠ some "") (hfield : ∀ info ∈ field, info.description ≠ some "") :
    description type field ≠ some "" := by
  unfold description
  split
  · next text htext =>
    split
    · exact htype
    · obtain ⟨info, hinfo, htext⟩ := Option.bind_eq_some_iff.mp htext
      exact htext ▸ hfield info hinfo
  · exact htype

theorem semanticType_ne_empty {type : TypeInfo} {field : Option FieldInfo}
    (htype : type.semanticType ≠ some "") (hfield : ∀ info ∈ field, info.semanticType ≠ some "") :
    semanticType type field ≠ some "" := by
  unfold semanticType
  cases hown : type.semanticType with
  | some text => exact fun h => htype (hown.trans h)
  | none =>
    cases field with
    | none => exact nofun
    | some info => exact hfield info rfl

section
variable {version : Int32} (order : ByteOrder) {field : Option FieldInfo}
  (hfield : ∀ info ∈ field, info.Valid version)
include hfield

theorem texts_typeToken {type : TypeInfo} (htype : type.Valid) :
    description type field ≠ some "" ∧ semanticType type field ≠ some "" :=
  ⟨description_ne_empty htype.description fun info hinfo => (hfield info hinfo).description,
    semanticType_ne_empty htype.semanticType fun info hinfo => (hfield info hinfo).semanticType⟩

theorem formed_encodedToken {info : TypeInfo} {type : EncodedType} (hinfo : info.Valid)
    (htype : type.Valid info.presence) (size offset : Int) :
    Formed order (encodedToken order info type size offset field) := by
  obtain ⟨hdescription, hsemantic⟩ := texts_typeToken hfield hinfo
  refine ⟨Record.faithful_iff.mpr ⟨⟨?_, ?_, ?_, ?_⟩, hdescription, htype.characterEncoding, ?_, ?_,
    hsemantic⟩, fun _ => rfl⟩
  · intro value hvalue
    exact Record.kept_of_hasConstant
      (htype.constValue value (Option.mem_ite_none_right.mp hvalue).2)
  · intro value hvalue
    exact Record.kept_of_ofPrimitive (htype.minValue value (Option.mem_ite_none_left.mp hvalue).2)
  · intro value hvalue
    exact Record.kept_of_ofPrimitive (htype.maxValue value (Option.mem_ite_none_left.mp hvalue).2)
  · intro value hvalue
    exact Record.kept_of_ofPrimitive
      (htype.nullValue value (Option.mem_ite_none_right.mp hvalue).2)
  · intro hempty
    obtain ⟨info, hinfo, hempty⟩ := Option.map_eq_some_iff.mp hempty
    exact (hfield info hinfo).epoch hempty
  · intro hempty
    obtain ⟨info, hinfo, hempty⟩ := Option.map_eq_some_iff.mp hempty
    exact (hfield info hinfo).timeUnit hempty

end

theorem formed_namedTokens (order : ByteOrder) {signal : Signal} (hsignal : signal ≠ .encoding)
    {primitive : Primitive} {values : List NamedValue}
    (hvalues : ∀ named ∈ values, named.Valid primitive) :
    ∀ token ∈ values.map (namedToken order signal primitive), Formed order token := by
  intro token htoken
  obtain ⟨named, hnamed, rfl⟩ := List.mem_map.mp htoken
  have hvalid := hvalues named hnamed
  refine ⟨Record.faithful_iff.mpr ⟨⟨?_, nofun, nofun, nofun⟩, hvalid.description, nofun, nofun,
    nofun, nofun⟩, fun h => absurd h hsignal⟩
  rintro _ ⟨⟩
  exact Record.kept_of_ofPrimitive hvalid.value

theorem formed_bracketed {order : ByteOrder} {opening : Token} {closing : Signal}
    {inner : List Token} (hopening : opening.signal.closing? = some closing)
    (hfaithful : Faithful opening) (hinner : ∀ token ∈ inner, Formed order token) :
    ∀ token ∈ bracketed opening closing inner, Formed order token := by
  rw [forall_bracketed]
  refine ⟨⟨hfaithful, fun h => ?_⟩, hinner, ⟨hfaithful.kept, hfaithful.nonempty⟩, fun h => ?_⟩
  · rw [h] at hopening
    cases hopening
  · have hend := (Signal.isEnd_of_closing? hopening).1
    rw [show closing = .encoding from h] at hend
    cases hend

mutual

theorem formed_typeTokens (order : ByteOrder) (version : Int32) :
    ∀ (type : DataType), type.Valid → ∀ (offset : Int) (field : Option FieldInfo),
      (∀ info ∈ field, info.Valid version) →
      ∀ token ∈ typeTokens order offset field type, Formed order token
  | .encoded info type, .encoded hinfo htype, offset, field, hfield => by
    unfold typeTokens
    simp only [List.mem_singleton, forall_eq]
    exact formed_encodedToken order hfield hinfo htype _ offset
  | .composite info members, .composite hinfo hmembers _ _, offset, field, hfield => by
    obtain ⟨hdescription, hsemantic⟩ := texts_typeToken hfield hinfo
    unfold typeTokens
    refine formed_bracketed rfl (Record.faithful_iff.mpr ⟨⟨nofun, nofun, nofun, nofun⟩,
      hdescription, nofun, nofun, nofun, hsemantic⟩) ?_
    exact formed_memberTokens order members hmembers 0
  | .enum info type, .enum hinfo htype, offset, field, hfield => by
    obtain ⟨hdescription, hsemantic⟩ := texts_typeToken hfield hinfo
    unfold typeTokens enumTokens
    refine formed_bracketed rfl (Record.faithful_iff.mpr ⟨⟨nofun, nofun, nofun, ?_⟩,
      hdescription, nofun, nofun, nofun, hsemantic⟩) ?_
    · intro value hvalue
      obtain ⟨-, hvalue⟩ := Option.mem_ite_none_right.mp hvalue
      cases hvalue
      apply Record.kept_of_ofPrimitive
      cases hnull : type.nullValue with
      | none => exact Value.ofPrimitive_nullValue type.encoding
      | some value => exact (htype.nullValue value hnull).2
    · exact formed_namedTokens order (by decide) htype.values.valid
  | .set info type, .set hinfo htype, offset, field, hfield => by
    obtain ⟨hdescription, hsemantic⟩ := texts_typeToken hfield hinfo
    unfold typeTokens setTokens
    refine formed_bracketed rfl (Record.faithful_iff.mpr ⟨⟨nofun, nofun, nofun, nofun⟩,
      hdescription, nofun, nofun, nofun, hsemantic⟩) ?_
    exact formed_namedTokens order (by decide) htype.choices.valid

theorem formed_memberTokens (order : ByteOrder) :
    ∀ (members : List DataType), (∀ member ∈ members, member.Valid) → ∀ offset : Int,
      ∀ token ∈ memberTokens order offset members, Formed order token
  | [], _, offset => by
    unfold memberTokens
    exact fun _ htoken => nomatch htoken
  | member :: rest, hmembers, offset => by
    unfold memberTokens
    intro token htoken
    rcases List.mem_append.mp htoken with htoken | htoken
    · exact formed_typeTokens order 0 member (hmembers member List.mem_cons_self) _ none
        (fun _ hinfo => nomatch hinfo) token htoken
    · exact formed_memberTokens order rest
        (fun other hother => hmembers other (List.mem_cons_of_mem _ hother)) _ token htoken

end

/-- A reference of two names takes more than a byte. -/
theorem length_of_dottedName? {text : String} {names : String × String}
    (h : Text.dottedName? text = some names) : 3 ≤ (Text.utf8 text).length := by
  have hchars := Text.length_le_length_utf8 text
  have hsplit := congrArg List.length (List.takeWhile_append_dropWhile (p := (· ≠ '.'))
    (l := text.toList))
  unfold Text.dottedName? at h
  dsimp only at h
  split at h
  · cases h
  · next second hsecond =>
    split at h
    · next hnames =>
      rw [hsecond, List.length_append, List.length_cons] at hsplit
      obtain ⟨hfirst, hlast⟩ := Bool.and_eq_true_iff.mp hnames
      have hpos : ∀ chars, Text.isNameChars chars = true → 0 < chars.length := by
        intro chars hchars
        cases chars with
        | nil => cases hchars
        | cons c rest => exact Nat.succ_pos _
      have := hpos _ hfirst
      have := hpos _ hlast
      omega
    · cases h

end Generate

/-- Whether a constant refers to a value by a text of one byte. -/
def FieldInfo.hasByteReference (info : FieldInfo) : Bool :=
  info.presence = .constant && info.valueRef.any fun text => (Text.utf8 text).length = 1

theorem FieldInfo.hasByteReference_iff {info : FieldInfo} :
    info.hasByteReference = true ↔ info.presence = .constant ∧
      ∃ text byte, info.valueRef = some text ∧ Text.utf8 text = [byte] := by
  unfold hasByteReference
  cases info.valueRef <;> simp [List.length_eq_one_iff]

/-- Whether a record gives the tokens of a field back. A plain field refers to
a value by two names, a group or data element by any text. -/
def Field.isRecordable : Field → Bool
  | .plain .. => true
  | .group info _ _ _ => !info.hasByteReference
  | .data info _ => !info.hasByteReference

namespace Generate
open Record (Faithful Kept WideValues)

theorem constValue_fieldToken {signal : Signal} {info : FieldInfo} {refId : Int32} {value : Value}
    (h : (fieldToken signal info refId).encoding.constValue = some value) :
    ∃ text, info.presence = .constant ∧ info.valueRef = some text ∧
      (fieldToken signal info refId).encoding.primitive = some .char ∧
      value = .bytes (Text.utf8 text) "UTF-8" := by
  obtain ⟨text, htext, rfl⟩ := Option.map_eq_some_iff.mp h
  obtain ⟨hconstant, hreference⟩ := Option.mem_ite_none_right.mp htext
  exact ⟨text, hconstant, hreference, congrArg (Option.map fun _ => Primitive.char) htext, rfl⟩

theorem wideValues_fieldToken (signal : Signal) (info : FieldInfo) (refId : Int32) :
    WideValues (fieldToken signal info refId) where
  const := by
    cases hvalue : (fieldToken signal info refId).encoding.constValue with
    | none => exact .inl rfl
    | some value =>
      obtain ⟨_, -, -, hprimitive, -⟩ := constValue_fieldToken hvalue
      exact .inr (.inr (.inl hprimitive))
  min := .inl rfl
  max := .inl rfl
  null := .inl rfl

theorem same_fieldToken_iff {version : Int32} {info : FieldInfo} (hinfo : info.Valid version)
    (signal : Signal) (refId : Int32) :
    (Record.reread (fieldToken signal info refId) == fieldToken signal info refId) = true ↔
      info.hasByteReference = false := by
  cases hbyte : info.hasByteReference with
  | true =>
    obtain ⟨hconstant, text, byte, hreference, hbytes⟩ := FieldInfo.hasByteReference_iff.mp hbyte
    have htext : (if info.presence = .constant then info.valueRef else none) = some text := by
      rw [if_pos hconstant, hreference]
    have hprimitive : (fieldToken signal info refId).encoding.primitive = some .char :=
      congrArg (Option.map fun _ => Primitive.char) htext
    have hvalue : (fieldToken signal info refId).encoding.constValue =
        some (.bytes [byte] "UTF-8") := by
      rw [← hbytes]
      exact congrArg (Option.map fun text => Value.bytes (Text.utf8 text) "UTF-8") htext
    rw [Record.reread_byte hprimitive hvalue]
    exact iff_of_false nofun nofun
  | false =>
    refine iff_of_true (Record.reread_same ?_) rfl
    refine Record.faithful_iff.mpr ⟨⟨?_, nofun, nofun, nofun⟩, hinfo.description, nofun, ?_, ?_,
      hinfo.semanticType⟩
    · intro value hvalue
      obtain ⟨text, hconstant, hreference, hprimitive, rfl⟩ := constValue_fieldToken hvalue
      refine Record.kept_bytes_iff.mpr ⟨fun hnil => ?_, .inr ⟨hprimitive, fun hlength => ?_⟩⟩
      · rw [(Text.utf8_eq_nil_iff text).mp hnil] at hreference
        exact hinfo.valueRef hreference
      · obtain ⟨byte, hbytes⟩ := List.length_eq_one_iff.mp hlength
        rw [FieldInfo.hasByteReference_iff.mpr ⟨hconstant, text, byte, hreference, hbytes⟩] at hbyte
        cases hbyte
    · exact fun h => hinfo.epoch (Option.some.inj h)
    · exact fun h => hinfo.timeUnit (Option.some.inj h)

theorem formed_typeInside {types : Table String DataType} {version : Int32} (order : ByteOrder)
    {field : Field} (hvalid : field.Valid types version) (offset : Int) :
    ∀ token ∈ typeTokens order offset (some field.info) field.typeInside, Formed order token := by
  have hinfo : ∀ info ∈ some field.info, info.Valid version := by
    rintro _ ⟨⟩
    exact hvalid.info
  cases hvalid with
  | plain _ htype _ => exact formed_typeTokens order version _ htype offset _ hinfo
  | group _ hdimension _ _ _ _ => exact formed_typeTokens order version _ hdimension offset _ hinfo
  | data _ htype _ _ _ => exact formed_typeTokens order version _ htype.asVarData offset _ hinfo

def Readable (order : ByteOrder) (token : Token) : Prop :=
  WideValues token ∧ (token.signal = .encoding → token.encoding.byteOrder = order)

theorem Formed.readable {order : ByteOrder} {token : Token} (h : Formed order token) :
    Readable order token :=
  ⟨Record.wideValues_of_kept h.1.kept, h.2⟩

theorem faithful_messageToken {types : Table String DataType} {version : Int32} {message : Message}
    (hvalid : message.Valid types version) (signal : Signal) :
    Faithful (messageToken signal message) :=
  Record.faithful_iff.mpr ⟨⟨nofun, nofun, nofun, nofun⟩, hvalid.description, nofun, nofun, nofun,
    hvalid.semanticType⟩

theorem readable_messageTokens {types : Table String DataType} {version : Int32}
    (order : ByteOrder) {message : Message} (hvalid : message.Valid types version) :
    ∀ token ∈ messageTokens order message, Readable order token := by
  have hreflects : Reflects types version order (Readable order) fun _ => true := by
    constructor
    · intro field hfield offset token htoken
      exact (formed_typeInside order hfield offset token htoken).readable
    · intro field _ refId
      refine iff_of_true ⟨⟨wideValues_fieldToken _ _ _, ?_⟩, wideValues_fieldToken _ _ _, ?_⟩ rfl
      · cases field <;> exact nofun
      · cases field <;> exact nofun
  have hwide := fun signal => Record.wideValues_of_kept (faithful_messageToken hvalid signal).kept
  refine (forall_messageTokens_iff hreflects (fun _ => ⟨?_, ?_⟩) hvalid
    ⟨⟨hwide .beginMessage, nofun⟩, hwide .endMessage, nofun⟩).mpr (Field.everywhere_true _)
  · exact fun h => ⟨⟨h.1.const, h.1.min, h.1.max, h.1.null⟩, h.2⟩
  · exact fun h => ⟨⟨h.1.const, h.1.min, h.1.max, h.1.null⟩, h.2⟩

/-- A run comes back the same just when each of its fields is recordable. -/
theorem same_messageTokens_iff {types : Table String DataType} {version : Int32}
    (order : ByteOrder) {message : Message} (hvalid : message.Valid types version) :
    (∀ token ∈ messageTokens order message, (Record.reread token == token) = true) ↔
      Field.everywhere Field.isRecordable message.fields = true := by
  have hreflects : Reflects types version order
      (fun token => (Record.reread token == token) = true) Field.isRecordable := by
    constructor
    · intro field hfield offset token htoken
      exact Record.reread_same (formed_typeInside order hfield offset token htoken).1
    · intro field hfield refId
      rw [same_fieldToken_iff hfield.info, same_fieldToken_iff hfield.info, and_self]
      cases hfield with
      | @plain info _ hinfo _ hrefers =>
        -- a plain field refers to a value by two names and a dot: never by one byte
        refine iff_of_true (Bool.eq_false_iff.mpr fun hbyte => ?_) rfl
        obtain ⟨-, text, byte, hreference, hbytes⟩ := FieldInfo.hasByteReference_iff.mp hbyte
        obtain ⟨_, _, _, hdotted, -, -⟩ := hrefers text hreference
        have hlength := length_of_dottedName? hdotted
        rw [hbytes, List.length_singleton] at hlength
        omega
      | group hinfo _ _ _ _ _ => simp [Field.isRecordable, Field.info]
      | data hinfo _ _ _ _ => simp [Field.isRecordable, Field.info]
  have hcount : ∀ token : Token,
      (Record.reread token.uncounted == token.uncounted) = true ↔
        (Record.reread token == token) = true := by
    intro token
    simp only [Token.beq_iff, Record.reread, Token.uncounted]
  exact forall_messageTokens_iff hreflects hcount hvalid
    ⟨Record.reread_same (faithful_messageToken hvalid .beginMessage),
      Record.reread_same (faithful_messageToken hvalid .endMessage)⟩

end Generate

end SimpleBinary
