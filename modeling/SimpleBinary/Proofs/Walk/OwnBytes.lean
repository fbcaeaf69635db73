import SimpleBinary.Proofs.Bytes.Stretch
import SimpleBinary.Proofs.Schema.Levels
import SimpleBinary.Proofs.Schema.Sizes
import SimpleBinary.Proofs.Walk.Wire

/-! The bytes that a value is read from. A plain field of encoded type is given
room in its block by its own presence and by its type, and read as its type
alone says: what is read is its own just when the type is constant or the
field has been given any room at all. -/
namespace SimpleBinary

namespace Walk
open Bytes (Agree)
open Generate

def footprint (token : Token) (primitive : Primitive) : Nat :=
  if 1 < token.arrayLength then token.size.toInt.toNat else primitive.size

section
variable {token : Token} {primitive : Primitive} {version : Int32} {index : Nat}

/-- A value depends on no byte outside its footprint. -/
theorem readValue_agree {a b : List UInt8} (hprimitive : token.encoding.primitive = some primitive)
    (h : Agree a b index (footprint token primitive)) :
    readValue a index token version = readValue b index token version := by
  have hstretch := h.stretch
  unfold footprint at hstretch
  simp only [readValue, hprimitive, Value.read?, h.length]
  by_cases harray : 1 < token.arrayLength
  · rw [if_pos harray] at hstretch
    simp only [if_pos harray, hstretch]
  · rw [if_neg harray] at hstretch
    simp only [if_neg harray, hstretch]

theorem readValue_constant (hconstant : token.encoding.presence = .constant) (a b : List UInt8) :
    readValue a index token version = readValue b index token version := by
  simp only [readValue, hconstant, if_true]

theorem footprint_pos (hprimitive : token.encoding.primitive = some primitive) :
    0 < footprint token primitive := by
  unfold footprint
  split
  · next harray =>
    rw [Token.arrayLength, hprimitive] at harray
    dsimp only at harray
    split at harray <;> omega
  · exact primitive.size_pos

theorem ofBits_ne (primitive : Primitive) (order : ByteOrder) :
    Value.ofBits primitive
        (Bytes.toNat (Bytes.arrange order (List.replicate primitive.size 0))) ≠
      Value.ofBits primitive
        (Bytes.toNat (Bytes.arrange order (List.replicate primitive.size 1))) := by
  cases primitive <;> cases order <;> decide

/-- What is on the wire is seen: its footprint filled in two ways gives two
values. -/
theorem readValue_ne (hprimitive : token.encoding.primitive = some primitive)
    (hpresence : token.encoding.presence ≠ .constant) (front : List UInt8) :
    readValue (front ++ (List.replicate (footprint token primitive) 0 ++ [])) front.length token
        token.version ≠
      readValue (front ++ (List.replicate (footprint token primitive) 1 ++ [])) front.length token
        token.version := by
  have hsize := footprint_pos hprimitive
  have hthere : ∀ byte : UInt8, ((front ++ (List.replicate (footprint token primitive) byte ++
      [])).drop front.length).take (footprint token primitive) =
      List.replicate (footprint token primitive) byte := by
    intro byte
    simp
  simp only [readValue, if_neg Int32.lt_irrefl, if_neg hpresence, hprimitive]
  by_cases harray : 1 < token.arrayLength
  · have hfoot : footprint token primitive = token.size.toInt.toNat := if_pos harray
    rw [hfoot] at hsize hthere ⊢
    have hroom : ∀ byte : UInt8, front.length + token.size.toInt.toNat ≤
        (front ++ (List.replicate token.size.toInt.toNat byte ++ [])).length := by
      intro byte
      simp only [List.length_append, List.length_replicate, List.length_nil]
      omega
    rw [if_pos harray, if_pos harray, if_pos (hroom 0), if_pos (hroom 1), hthere, hthere]
    intro heq
    have hbytes := (Value.bytes.inj (Except.ok.inj heq)).1
    rw [List.replicate_inj] at hbytes
    exact absurd hbytes.2 (by simp only [Nat.ne_of_gt hsize]; decide)
  · have hfoot : footprint token primitive = primitive.size := if_neg harray
    rw [hfoot]
    simp only [if_neg harray]
    rw [Value.read?_append _ _ _ List.length_replicate,
      Value.read?_append _ _ _ List.length_replicate]
    have hne := ofBits_ne primitive token.encoding.byteOrder
    simpa using hne

end

/-- A field is read from its own bytes: two buffers that agree on these give one
value, wherever the block starts and whatever the version. -/
def ReadsOwn (field type : Token) : Prop :=
  ∀ (start : Nat) (version : Int32) (a b : List UInt8),
    Agree a b (start + field.offset.toInt.toNat) field.size.toInt.toNat →
    readValue a (start + type.offset.toInt.toNat) type version =
      readValue b (start + type.offset.toInt.toNat) type version

end Walk

namespace Field

/-- Room is for what is no constant, neither by itself nor by its type, and has
a length that is known and not zero. -/
theorem room_encoded (info : FieldInfo) {typeInfo : TypeInfo} {type : EncodedType}
    (hvalid : (DataType.encoded typeInfo type).Valid) :
    room info (.encoded typeInfo type) =
      if info.presence = .constant ∨ typeInfo.presence = .constant ∨ type.isVariable = true then 0
      else type.primitive.size * type.length.toInt := by
  cases hvalid with
  | encoded _ htype =>
    have hlength := htype.length
    have hfits := Check.fits_iff.mp htype.fits
    have hnonneg : 0 ≤ (type.primitive.size : Int) * type.length.toInt :=
      Int.mul_nonneg (Int.natCast_nonneg _) hlength
    have hsize : DataType.arraySize type = type.primitive.size * type.length.toInt := by
      unfold DataType.arraySize
      omega
    unfold room isConstant
    simp only [Field.info, type?, Option.any_some, DataType.isConstant, DataType.info,
      DataType.encodedLength, hsize]
    by_cases hfield : info.presence = .constant
    · simp [hfield]
    · by_cases htype : typeInfo.presence = .constant
      · simp [htype]
      · by_cases hvariable : type.isVariable = true
        · simp [hfield, htype, hvariable]
        · have hknown : (type.primitive.size : Int) * type.length.toInt ≠ variableLength := by
            unfold variableLength
            omega
          simp [hfield, htype, hvariable, hknown]

theorem room_pos_iff (info : FieldInfo) {typeInfo : TypeInfo} {type : EncodedType}
    (hvalid : (DataType.encoded typeInfo type).Valid) :
    0 < room info (.encoded typeInfo type) ↔ info.presence ≠ .constant ∧
      typeInfo.presence ≠ .constant ∧ type.isVariable = false ∧ 0 < type.length.toInt := by
  have hsize : 0 < (type.primitive.size : Int) := Int.natCast_pos.mpr type.primitive.size_pos
  rw [room_encoded info hvalid]
  split
  · next h =>
    simp only [Int.lt_irrefl, false_iff]
    rintro ⟨hfield, htype, hfixed, -⟩
    rcases h with h | h | h
    · exact hfield h
    · exact htype h
    · simp [hfixed] at h
  · next h =>
    simp only [not_or, Bool.not_eq_true] at h
    simp only [h, ne_eq, not_false_eq_true, true_and]
    constructor
    · intro hpos
      exact Int.lt_of_mul_lt_mul_left (by rwa [Int.mul_zero]) (Int.le_of_lt hsize)
    · exact Int.mul_pos hsize

theorem isPlace_room (info : FieldInfo) {typeInfo : TypeInfo} {type : EncodedType}
    (hvalid : (DataType.encoded typeInfo type).Valid) :
    IsPlace (room info (.encoded typeInfo type)) := by
  rw [room_encoded info hvalid]
  cases hvalid with
  | encoded _ htype =>
    have hfits := Check.fits_iff.mp htype.fits
    have hnonneg : 0 ≤ (type.primitive.size : Int) * type.length.toInt :=
      Int.mul_nonneg (Int.natCast_nonneg _) htype.length
    unfold IsPlace
    split <;> omega

end Field

namespace Walk
open Generate

theorem encodedPresence_eq_constant {info : TypeInfo} {field : Option FieldInfo} :
    encodedPresence info field = .constant ↔ info.presence = .constant := by
  unfold encodedPresence
  split
  · next h => simp [h.1]
  · exact Iff.rfl

section
variable {order : ByteOrder} {info : FieldInfo} {typeInfo : TypeInfo} {type : EncodedType}

def valueToken (order : ByteOrder) (info : FieldInfo) (typeInfo : TypeInfo) (type : EncodedType) :
    Token :=
  encodedToken order typeInfo type (DataType.encoded typeInfo type).encodedLength
    info.computedOffset info

theorem isConstant_valueToken :
    (valueToken order info typeInfo type).isConstant = true ↔ typeInfo.presence = .constant := by
  rw [Token.isConstant, decide_eq_true_eq]
  exact encodedPresence_eq_constant

theorem size_fieldToken (hvalid : (DataType.encoded typeInfo type).Valid)
    (hsized : Field.isSized (.plain info (.encoded typeInfo type)) = true) (refId : Int32) :
    (fieldToken .beginField info refId).size.toInt = Field.room info (.encoded typeInfo type) := by
  have hroom : info.computedBlockLength = Field.room info (.encoded typeInfo type) :=
    of_decide_eq_true hsized
  change (Int32.ofInt info.computedBlockLength).toInt = _
  rw [hroom, (Field.isPlace_room info hvalid).toInt_ofInt]

theorem footprint_valueToken (order : ByteOrder) (hvalid : (DataType.encoded typeInfo type).Valid)
    (hroom : 0 < Field.room info (.encoded typeInfo type)) :
    (footprint (valueToken order info typeInfo type) type.primitive : Int) =
      Field.room info (.encoded typeInfo type) := by
  obtain ⟨hfield, htype, hfixed, hlength⟩ := (Field.room_pos_iff info hvalid).mp hroom
  have hplace := Field.isPlace_room info hvalid
  have hsize : 0 < (type.primitive.size : Int) := Int.natCast_pos.mpr type.primitive.size_pos
  have hequal : (DataType.encoded typeInfo type).encodedLength =
      Field.room info (.encoded typeInfo type) := by
    unfold Field.room at hroom ⊢
    split
    · next h => simp [h] at hroom
    · rfl
  have htoken : (valueToken order info typeInfo type).size.toInt =
      Field.room info (.encoded typeInfo type) := by
    change (Int32.ofInt (DataType.encoded typeInfo type).encodedLength).toInt = _
    rw [hequal, hplace.toInt_ofInt]
  have harray : (valueToken order info typeInfo type).arrayLength = type.length.toInt := by
    change (if 0 < (valueToken order info typeInfo type).size.toInt then
      (valueToken order info typeInfo type).size.toInt / type.primitive.size else 1) = _
    rw [htoken, if_pos hroom, Field.room_encoded info hvalid,
      if_neg (by simp [hfield, htype, hfixed]),
      Int.mul_ediv_cancel_left _ (Int.ne_of_gt hsize)]
  unfold footprint
  rw [harray, htoken]
  split
  · exact Int.toNat_of_nonneg (Int.le_of_lt hroom)
  · have hone : type.length.toInt = 1 := by omega
    rw [Field.room_encoded info hvalid, if_neg (by simp [hfield, htype, hfixed]), hone,
      Int.mul_one]

/-- A field that has room, or whose type is constant, is read from its own
bytes, and any other is not. -/
theorem readsOwn_iff (hvalid : (DataType.encoded typeInfo type).Valid)
    (hsized : Field.isSized (.plain info (.encoded typeInfo type)) = true) (refId : Int32) :
    ReadsOwn (fieldToken .beginField info refId) (valueToken order info typeInfo type) ↔
      (valueToken order info typeInfo type).isConstant = true ∨
        0 < (fieldToken .beginField info refId).size.toInt := by
  have hsize := size_fieldToken hvalid hsized refId
  constructor
  · intro hown
    by_cases hconstant : (valueToken order info typeInfo type).isConstant = true
    · exact .inl hconstant
    · refine .inr (Int.not_le.mp fun hnone => ?_)
      have hplace := (Field.isPlace_room info hvalid).1
      have hzero : (fieldToken .beginField info refId).size.toInt.toNat = 0 := by omega
      rw [Token.isConstant, decide_eq_true_eq] at hconstant
      -- nothing is asked of buffers of one length, and two of them are told apart
      refine readValue_ne rfl hconstant
        (List.replicate (0 + (valueToken order info typeInfo type).offset.toInt.toNat) 0) ?_
      rw [List.length_replicate]
      refine hown 0 _ _ _ ⟨by simp, fun i hlow hhigh => ?_⟩
      rw [hzero] at hhigh
      omega
  · rintro (hconstant | hroom) start version a b hagree
    · exact readValue_constant (of_decide_eq_true hconstant) a b
    · refine readValue_agree rfl ?_
      rw [hsize] at hroom hagree
      have hfootprint := footprint_valueToken order hvalid hroom
      have hnat : footprint (valueToken order info typeInfo type) type.primitive =
          (Field.room info (.encoded typeInfo type)).toNat := by omega
      rw [hnat]
      exact hagree

end

/-- Two tokens that follow each other in a run, a begin of a field and the
token of an encoded type, are of one plain field at some depth. -/
def OfField (order : ByteOrder) (fields : List Field) (opening next : Token) : Prop :=
  next.signal = .encoding → ∃ level info typeInfo type refId, Field.Level fields level ∧
    .plain info (.encoded typeInfo type) ∈ level ∧
    opening = fieldToken .beginField info refId ∧ next = valueToken order info typeInfo type

/-- Every begin of a field in a run, whatever stands behind the run, has a
partner as told; only those of the tail are left open. -/
def Opens (told : Token → Token → Prop) (run : List Token) : Prop :=
  ∀ tail opening next, opening.signal = .beginField → [opening, next] <:+: run ++ tail →
    told opening next ∨ [opening, next] <:+: tail

namespace Opens
variable {told : Token → Token → Prop} {a b run : List Token} {token first : Token}

theorem nil : Opens told [] := fun _ _ _ _ h => .inr h

theorem cons (hsignal : token.signal ≠ .beginField) (h : Opens told run) :
    Opens told (token :: run) := by
  intro tail opening next hopening hinfix
  rw [List.cons_append, List.infix_cons_iff] at hinfix
  rcases hinfix with hhead | hinfix
  · rw [List.cons_prefix_cons] at hhead
    exact absurd (hhead.1 ▸ hopening) hsignal
  · exact h tail opening next hopening hinfix

theorem begin (htold : told token first) (h : Opens told (first :: run)) :
    Opens told (token :: first :: run) := by
  intro tail opening next hopening hinfix
  rw [List.cons_append, List.infix_cons_iff] at hinfix
  rcases hinfix with hhead | hinfix
  · rw [List.cons_append, List.cons_prefix_cons, List.cons_prefix_cons] at hhead
    obtain ⟨rfl, rfl, -⟩ := hhead
    exact .inl htold
  · exact h tail opening next hopening hinfix

theorem append (ha : Opens told a) (hb : Opens told b) : Opens told (a ++ b) := by
  intro tail opening next hopening hinfix
  rw [List.append_assoc] at hinfix
  rcases ha _ opening next hopening hinfix with htold | hinfix
  · exact .inl htold
  · exact hb tail opening next hopening hinfix

theorem of_forall (h : ∀ token ∈ run, token.signal ≠ .beginField) : Opens told run := by
  induction run with
  | nil => exact nil
  | cons token rest ih =>
    apply cons (h token List.mem_cons_self)
    exact ih fun other hother => h other (List.mem_cons_of_mem _ hother)

end Opens

theorem signal_namedTokens (order : ByteOrder) {signal : Signal} (hsignal : signal ≠ .beginField)
    (primitive : Primitive) (values : List NamedValue) :
    ∀ token ∈ values.map (namedToken order signal primitive), token.signal ≠ .beginField := by
  simp only [List.mem_map, forall_exists_index, and_imp]
  rintro _ named - rfl
  exact hsignal

mutual

theorem signal_typeTokens (order : ByteOrder) : ∀ (type : DataType) (offset : Int)
    (field : Option FieldInfo),
    ∀ token ∈ typeTokens order offset field type, token.signal ≠ .beginField
  | .encoded .., _, _ => by
    simp [typeTokens, encodedToken, typeToken]
  | .composite _ members, _, _ => by
    rw [typeTokens, forall_bracketed]
    exact ⟨by simp [typeToken], signal_memberTokens order members 0, by simp⟩
  | .enum .., _, _ => by
    rw [typeTokens, enumTokens, forall_bracketed]
    exact ⟨by simp [typeToken], signal_namedTokens order (by simp) _ _, by simp⟩
  | .set .., _, _ => by
    rw [typeTokens, setTokens, forall_bracketed]
    exact ⟨by simp [typeToken], signal_namedTokens order (by simp) _ _, by simp⟩

theorem signal_memberTokens (order : ByteOrder) : ∀ (members : List DataType) (offset : Int),
    ∀ token ∈ memberTokens order offset members, token.signal ≠ .beginField
  | [], _ => by simp [memberTokens]
  | member :: rest, _ => by
    simp only [memberTokens_cons, List.mem_append, or_imp, forall_and]
    exact ⟨signal_typeTokens order member _ none, signal_memberTokens order rest _⟩

end

/-- The first token of a type is that of an encoded type, or of no encoding at
all. -/
theorem exists_typeTokens (order : ByteOrder) (info : FieldInfo) (type : DataType) :
    ∃ first rest, typeTokens order info.computedOffset info type = first :: rest ∧
      (first.signal = .encoding → ∃ typeInfo encoded, type = .encoded typeInfo encoded ∧
        first = valueToken order info typeInfo encoded) := by
  cases type with
  | encoded typeInfo encoded =>
    rw [typeTokens]
    exact ⟨_, [], rfl, fun _ => ⟨typeInfo, encoded, rfl, rfl⟩⟩
  | composite => rw [typeTokens]; exact ⟨_, _, rfl, nofun⟩
  | enum => rw [typeTokens]; exact ⟨_, _, rfl, nofun⟩
  | set => rw [typeTokens]; exact ⟨_, _, rfl, nofun⟩

mutual

/-- By recursion on the field: only a plain field opens by itself. -/
theorem opens_wrap (order : ByteOrder) {fields level : List Field}
    (hlevel : Field.Level fields level) : ∀ field : Field, field ∈ level →
    ∀ (starts : List Nat) (base : Nat),
      Opens (OfField order fields) (wrap starts field (body order base field))
  | .plain info type, hfield, starts, base => by
    obtain ⟨first, rest, hrun, hfirst⟩ := exists_typeTokens order info type
    have hbody : Opens (OfField order fields) (first :: rest) :=
      hrun ▸ .of_forall (signal_typeTokens order type _ _)
    rw [wrap, body, bracketed, hrun, List.cons_append, List.cons_append]
    refine .begin (fun hsignal => ?_) (hbody.append (.cons nofun .nil))
    obtain ⟨typeInfo, encoded, rfl, rfl⟩ := hfirst hsignal
    exact ⟨level, info, typeInfo, encoded, _, hlevel, hfield, rfl, rfl⟩
  | .data info type, hfield, starts, base => by
    have hbody : Opens (OfField order fields) (typeTokens order info.computedOffset info type) :=
      .of_forall (signal_typeTokens order type _ _)
    rw [wrap, body, bracketed, List.cons_append]
    exact .cons nofun (hbody.append (.cons nofun .nil))
  | .group info dimension blockLength inner, hfield, starts, base => by
    have hhead : Opens (OfField order fields) (typeTokens order 0 info dimension) :=
      .of_forall (signal_typeTokens order dimension _ _)
    have hinner := fun starts base => opens_wrapped order (.group hlevel hfield) inner
      (fun _ h => h) starts base
    rw [wrap, body, bracketed, List.cons_append, wrapAll_bodies]
    exact .cons nofun ((hhead.append (hinner _ _)).append (.cons nofun .nil))

theorem opens_wrapped (order : ByteOrder) {fields level : List Field}
    (hlevel : Field.Level fields level) : ∀ part : List Field, (∀ field ∈ part, field ∈ level) →
    ∀ (starts : List Nat) (base : Nat),
      Opens (OfField order fields) (wrapped order starts base part)
  | [], _, starts, base => by
    rw [wrapped_nil]
    exact .nil
  | field :: rest, hpart, starts, base => by
    rw [wrapped_cons]
    exact (opens_wrap order hlevel field (hpart field List.mem_cons_self) starts _).append
      (opens_wrapped order hlevel rest
        (fun other hother => hpart other (List.mem_cons_of_mem _ hother)) starts _)

end

/-- Neighbours in a counted run were neighbours before. -/
theorem exists_neighbours {run before after : List Token} {first second : Token}
    (hnested : Token.Nested run) (h : Token.recount run = before ++ first :: second :: after) :
    ∃ opening next, [opening, next] <:+: run ∧ opening.uncounted = first.uncounted ∧
      next.uncounted = second.uncounted := by
  have hmap := Token.uncounted_recount hnested
  rw [h, List.map_append, List.map_cons, List.map_cons, eq_comm, List.map_eq_append_iff] at hmap
  obtain ⟨front, back, rfl, -, hback⟩ := hmap
  obtain ⟨opening, rest, rfl, hopening, hrest⟩ := List.map_eq_cons_iff.mp hback
  obtain ⟨next, tail, rfl, hnext, -⟩ := List.map_eq_cons_iff.mp hrest
  exact ⟨opening, next, ⟨front, tail, by simp⟩, hopening, hnext⟩

theorem ofField_of_neighbours {order : ByteOrder} {message : Message}
    {before after : List Token} {first second : Token}
    (hrun : messageTokens order message = before ++ first :: second :: after)
    (hfirst : first.signal = .beginField) (hsecond : second.signal = .encoding) :
    ∃ level info typeInfo type refId, Field.Level message.fields level ∧
      .plain info (.encoded typeInfo type) ∈ level ∧
      first.uncounted = (fieldToken .beginField info refId).uncounted ∧
      second.uncounted = (valueToken order info typeInfo type).uncounted := by
  rw [messageTokens_eq] at hrun
  obtain ⟨opening, next, hinfix, hopening, hnext⟩ :=
    exists_neighbours (nested_bracketed rfl (nested_messageFields order message)) hrun
  have hsignal : opening.signal = .beginField := (congrArg Token.signal hopening).trans hfirst
  have hencoding : next.signal = .encoding := (congrArg Token.signal hnext).trans hsecond
  have hopens : Opens (OfField order message.fields)
      (bracketed (messageToken .beginMessage message) .endMessage
        (messageFields order message)) := by
    have hfields : Opens (OfField order message.fields) (messageFields order message) :=
      opens_wrapped order .top message.fields (fun _ h => h) _ _
    rw [bracketed, List.cons_append]
    exact .cons nofun (hfields.append (.cons nofun .nil))
  rcases hopens [] opening next hsignal (by rwa [List.append_nil]) with htold | hnone
  · obtain ⟨level, info, typeInfo, type, refId, hlevel, hfield, rfl, rfl⟩ := htold hencoding
    exact ⟨level, info, typeInfo, type, refId, hlevel, hfield, hopening.symm, hnext.symm⟩
  · exact absurd hnone (by simp)

/-- In the run of an accepted message, wherever an encoding follows the begin of
a field, the two are of one plain field. It is read from its own bytes just
when its type is constant or it has been given room, and it has room just when
neither itself nor its type is constant and the type has a length that is
fixed and not zero. -/
theorem readsOwn_of_parse {document : String} {policy : Policy} {schema : Schema}
    {message : Message} {before after : List Token} {first second : Token}
    (hparse : Schema.parse document policy = .ok schema)
    (hmessage : message ∈ schema.messages.values)
    (hrun : messageTokens schema.byteOrder message = before ++ first :: second :: after)
    (hfirst : first.signal = .beginField) (hsecond : second.signal = .encoding) :
    (ReadsOwn first second ↔ second.isConstant = true ∨ 0 < first.size.toInt) ∧
      ∃ level info typeInfo type, Field.Level message.fields level ∧
        .plain info (.encoded typeInfo type) ∈ level ∧ first.name = info.name ∧
        second.name = typeInfo.name ∧
        (second.isConstant = true ↔ typeInfo.presence = .constant) ∧
        (0 < first.size.toInt ↔ info.presence ≠ .constant ∧ typeInfo.presence ≠ .constant ∧
          type.isVariable = false ∧ 0 < type.length.toInt) := by
  obtain ⟨level, info, typeInfo, type, refId, hlevel, hfield, heqFirst, heqSecond⟩ :=
    ofField_of_neighbours hrun hfirst hsecond
  have hrow := ((Schema.valid_of_parse hparse).message hmessage).row.of_level hlevel
  have hvalid : (DataType.encoded typeInfo type).Valid := by
    cases hrow.valid _ hfield
    assumption
  have hsized : Field.isSized (.plain info (.encoded typeInfo type)) = true :=
    Field.throughout_of_mem
      (Field.everywhere_level (Schema.isSized_of_parse hparse hmessage) hlevel) hfield
  -- neither token is looked at for its count
  change (ReadsOwn first.uncounted second.uncounted ↔ second.uncounted.isConstant = true ∨
    0 < first.uncounted.size.toInt) ∧ _
  refine ⟨?_, level, info, typeInfo, type, hlevel, hfield, ?_, ?_, ?_, ?_⟩
  · rw [heqFirst, heqSecond]
    exact readsOwn_iff hvalid hsized refId
  · exact congrArg Token.name heqFirst
  · exact congrArg Token.name heqSecond
  · change second.uncounted.isConstant = true ↔ _
    rw [heqSecond]
    exact isConstant_valueToken
  · change 0 < first.uncounted.size.toInt ↔ _
    rw [heqFirst]
    exact (Iff.of_eq (congrArg (0 < ·) (size_fieldToken hvalid hsized refId))).trans
      (Field.room_pos_iff info hvalid)

/-- Whether a field begins at an index of the run of a message and an encoding
follows, of which something is checked. -/
def fieldAt (index : Nat) (check : Token → Token → Bool) (pair : Schema × Message) : Bool :=
  match (messageTokens pair.1.byteOrder pair.2).drop index with
  | first :: second :: _ =>
    first.signal = .beginField && second.signal = .encoding && check first second
  | _ => false

theorem exists_of_fieldAt {document : String} {index : Nat} {check : Token → Token → Bool}
    (h : (onlyMessage? document).any (fieldAt index check) = true) :
    ∃ schema message before after first second, Schema.parse document {} = .ok schema ∧
      message ∈ schema.messages.values ∧
      messageTokens schema.byteOrder message = before ++ first :: second :: after ∧
      first.signal = .beginField ∧ second.signal = .encoding ∧ check first second = true := by
  obtain ⟨schema, message, hparse, hmessage, hfield⟩ := exists_of_onlyMessage? h
  unfold fieldAt at hfield
  split at hfield
  · next first second after hdrop =>
    simp only [Bool.and_eq_true, decide_eq_true_eq] at hfield
    refine ⟨schema, message, (messageTokens schema.byteOrder message).take index, after, first,
      second, hparse, hmessage, ?_, hfield.1.1, hfield.1.2, hfield.2⟩
    rw [← hdrop, List.take_append_drop]
  · cases hfield

/-- A constant type, a number that is made optional, and an array in a group. -/
def tagged : String :=
  Schema.withHeader "<messageSchema package='p' id='7' byteOrder='bigEndian'><types>"
    "<composite name='groupSizeEncoding'><type name='blockLength' primitiveType='uint16'/>
    <type name='numInGroup' primitiveType='uint8'/></composite>
    <type name='K' primitiveType='uint8' presence='constant'>9</type>
    <type name='Tag' primitiveType='uint16' length='3'/></types><message name='M' id='1'>
    <field name='k' id='2' type='K'/><field name='n' id='3' type='uint32' presence='optional'/>
    <group name='g' id='4'><field name='s' id='5' type='uint8'/><field name='t' id='6' type='Tag'/>
    </group></message></messageSchema>"

def isArray (first second : Token) : Bool :=
  first.offset.toInt = 1 && first.size.toInt = 6 &&
    (readValue [8, 0, 1, 0, 2, 0, 3] 1 second 0).toOption =
      some (.bytes [0, 1, 0, 2, 0, 3] Value.defaultCharacterEncoding)

theorem fieldAt_tagged : (onlyMessage? tagged).any (fieldAt 15 isArray) = true := by
  rw [onlyMessage?, tagged, Schema.parse_withHeader String.toList_ofList String.toList_ofList]
  decide +kernel

theorem readsOwn_tagged :
    ∃ schema message before after first second, Schema.parse tagged {} = .ok schema ∧
      message ∈ schema.messages.values ∧
      messageTokens schema.byteOrder message = before ++ first :: second :: after ∧
      first.signal = .beginField ∧ second.signal = .encoding ∧ first.offset.toInt = 1 ∧
      first.size.toInt = 6 ∧ ReadsOwn first second ∧
      (readValue [8, 0, 1, 0, 2, 0, 3] 1 second 0).toOption =
        some (.bytes [0, 1, 0, 2, 0, 3] Value.defaultCharacterEncoding) := by
  obtain ⟨schema, message, before, after, first, second, hparse, hmessage, hrun, hfirst, hsecond,
    hfield⟩ := exists_of_fieldAt fieldAt_tagged
  simp only [isArray, Bool.and_eq_true, decide_eq_true_eq] at hfield
  obtain ⟨⟨hoffset, hsize⟩, hvalue⟩ := hfield
  have hown := (readsOwn_of_parse hparse hmessage hrun hfirst hsecond).1.mpr
    (.inr (by rw [hsize]; decide))
  exact ⟨schema, message, before, after, first, second, hparse, hmessage, hrun, hfirst, hsecond,
    hoffset, hsize, hown, hvalue⟩

/-- A field that is declared constant over a type that is not, in front of a
number. -/
def borrowed : String :=
  Schema.withHeader "<messageSchema package='p' id='7'><types>"
    "<enum name='E' encodingType='uint8'><validValue name='A'>1</validValue></enum>
    </types><message name='M' id='1'>
    <field name='c' id='2' type='uint8' presence='constant' valueRef='E.A'/>
    <field name='x' id='3' type='uint8'/></message></messageSchema>"

/-- A constant without room that is read as whatever comes first. -/
def isBorrower (first second : Token) : Bool :=
  first.isConstant && first.offset.toInt = 0 && first.size.toInt = 0 &&
    second.offset.toInt = 0 && (readValue [5] 0 second 0).toOption = some (.long 5 1) &&
    (readValue [6] 0 second 0).toOption = some (.long 6 1)

theorem fieldAt_borrowed : (onlyMessage? borrowed).any (fieldAt 1 isBorrower) = true := by
  rw [onlyMessage?, borrowed, Schema.parse_withHeader String.toList_ofList String.toList_ofList]
  decide +kernel

theorem not_readsOwn_borrowed :
    ∃ schema message before after first second, Schema.parse borrowed {} = .ok schema ∧
      message ∈ schema.messages.values ∧
      messageTokens schema.byteOrder message = before ++ first :: second :: after ∧
      first.signal = .beginField ∧ second.signal = .encoding ∧ first.isConstant = true ∧
      first.offset.toInt = 0 ∧ first.size.toInt = 0 ∧ ¬ ReadsOwn first second ∧
      (readValue [5] 0 second 0).toOption = some (.long 5 1) ∧
      (readValue [6] 0 second 0).toOption = some (.long 6 1) := by
  obtain ⟨schema, message, before, after, first, second, hparse, hmessage, hrun, hfirst, hsecond,
    hfield⟩ := exists_of_fieldAt fieldAt_borrowed
  simp only [isBorrower, Bool.and_eq_true, decide_eq_true_eq] at hfield
  obtain ⟨⟨⟨⟨⟨hconstant, hoffset⟩, hsize⟩, hplace⟩, hfive⟩, hsix⟩ := hfield
  refine ⟨schema, message, before, after, first, second, hparse, hmessage, hrun, hfirst, hsecond,
    hconstant, hoffset, hsize, fun hown => ?_, hfive, hsix⟩
  have hsame := hown 0 0 [5] [6] ⟨rfl, fun i hlow hhigh => by rw [hsize] at hhigh; omega⟩
  rw [hplace] at hsame
  change readValue [5] 0 second 0 = readValue [6] 0 second 0 at hsame
  rw [hsame, hsix] at hfive
  exact absurd hfive (by decide)

end Walk

end SimpleBinary
