import SimpleBinary.Proofs.Value.Literal
import SimpleBinary.Schema
import SimpleBinary.Schema.Check

/-! What the types and fields of a schema are when they keep every rule: names,
lengths, offsets and order, and values of the primitive they stand beside. -/
namespace SimpleBinary

structure TypeInfo.Valid (info : TypeInfo) : Prop where
  name : Text.isName info.name = true
  description : info.description ≠ some ""
  semanticType : info.semanticType ≠ some ""

/-- A constant of several characters fills the array, any other value is one
element. -/
def EncodedType.HasConstant (type : EncodedType) (value : Value) : Prop :=
  if type.primitive = .char ∧ 1 < type.length.toInt then
    ∃ content characterEncoding, value = .bytes content characterEncoding ∧
      (content.length : Int) = type.length.toInt
  else Value.OfPrimitive type.primitive value

def EncodedType.ofLiteral (type : EncodedType) (text : String) : Except LiteralError Value :=
  if type.primitive = .char ∧ 1 < type.length.toInt then
    Value.ofArrayLiteral text type.length.toInt.toNat
      (type.characterEncoding.getD Value.defaultCharacterEncoding)
  else Value.ofLiteral text type.primitive

theorem EncodedType.hasConstant_of_literal {type : EncodedType} {text : String} {value : Value}
    (h : type.ofLiteral text = .ok value) : type.HasConstant value := by
  unfold ofLiteral at h
  unfold HasConstant
  split at h
  · next hchars =>
    rw [if_pos hchars]
    obtain ⟨content, rfl, hlength⟩ := Value.bytes_of_arrayLiteral (by omega) h
    exact ⟨content, _, rfl, by omega⟩
  · next hsingle =>
    rw [if_neg hsingle]
    exact Value.ofPrimitive_of_literal h

structure EncodedType.Valid (presence : Presence) (type : EncodedType) : Prop where
  length : 0 ≤ type.length.toInt
  fits : Check.fits (type.primitive.size * type.length.toInt) = true
  characterEncoding : type.characterEncoding ≠ some ""
  constant : presence = .constant → type.constValue.isSome = true
  constValue : ∀ value ∈ type.constValue, type.HasConstant value
  minValue : ∀ value ∈ type.minValue, Value.OfPrimitive type.primitive value
  maxValue : ∀ value ∈ type.maxValue, Value.OfPrimitive type.primitive value
  nullValue : ∀ value ∈ type.nullValue, Value.OfPrimitive type.primitive value

structure NamedValue.Valid (encoding : Primitive) (named : NamedValue) : Prop where
  name : Text.isName named.name = true
  description : named.description ≠ some ""
  value : Value.OfPrimitive encoding named.value

/-- Valid values or choices, no two of one name and no two of one value. -/
structure NamedValue.Listed (encoding : Primitive) (values : List NamedValue) : Prop where
  valid : ∀ named ∈ values, named.Valid encoding
  distinct : values.Pairwise fun a b => a.name ≠ b.name ∧ (a.value == b.value) = false

structure EnumType.Valid (presence : Presence) (type : EnumType) : Prop where
  encoding : type.encoding = .char ∨ type.encoding = .uint8
  nullValue : ∀ value ∈ type.nullValue,
    presence = .optional ∧ Value.OfPrimitive type.encoding value
  values : NamedValue.Listed type.encoding type.values

def NamedValue.IsBit (encoding : Primitive) (choice : NamedValue) : Prop :=
  ∃ position size, choice.value = .long position size ∧ 0 ≤ position.toInt ∧
    position.toInt < 8 * encoding.size

structure SetType.Valid (type : SetType) : Prop where
  encoding : type.encoding.isUnsigned = true
  choices : NamedValue.Listed type.encoding type.choices
  positions : ∀ choice ∈ type.choices, choice.IsBit type.encoding

namespace DataType

theorem exists_of_encoded? {type : DataType} {encoded : EncodedType}
    (h : type.encoded? = some encoded) : ∃ info, type = .encoded info encoded := by
  cases type <;> cases h
  exact ⟨_, rfl⟩

theorem exists_of_composite? {type : DataType} {members : List DataType}
    (h : type.composite? = some members) : ∃ info, type = .composite info members := by
  cases type <;> cases h
  exact ⟨_, rfl⟩

theorem exists_of_enum? {type : DataType} {enum : EnumType} (h : type.enum? = some enum) :
    ∃ info, type = .enum info enum := by
  cases type <;> cases h
  exact ⟨_, rfl⟩

theorem start_of_some {member : DataType} {declared : Int32} (offset : Int)
    (h : member.info.offset = some declared) : member.start offset = declared.toInt := by
  rw [start, h]

theorem start_of_none {member : DataType} (offset : Int) (h : member.info.offset = none) :
    member.start offset = offset := by
  rw [start, h]

/-- Each member starts behind the one before it, up to the first of variable
length. -/
def Spaced (offset : Int) : List DataType → Prop
  | [] => True
  | member :: rest =>
    offset ≤ member.start offset ∧ (member.isVariable = false →
      Check.fits (member.start offset + member.encodedLength) = true ∧
        Spaced (member.start offset + member.encodedLength) rest)

inductive Valid : DataType → Prop where
  | encoded {info : TypeInfo} {type : EncodedType} :
      info.Valid → type.Valid info.presence → Valid (.encoded info type)
  | composite {info : TypeInfo} {members : List DataType} :
      info.Valid → (∀ member ∈ members, Valid member) →
      members.Pairwise (fun a b => a.name ≠ b.name) → Spaced 0 members →
      Valid (.composite info members)
  | enum {info : TypeInfo} {type : EnumType} :
      info.Valid → type.Valid info.presence → Valid (.enum info type)
  | set {info : TypeInfo} {type : SetType} : info.Valid → type.Valid → Valid (.set info type)

theorem Valid.info {type : DataType} (h : type.Valid) : type.info.Valid := by
  cases h <;> assumption

theorem Valid.withInfo {type : DataType} {info : TypeInfo} (h : type.Valid) (hinfo : info.Valid)
    (hpresence : info.presence = type.info.presence) : (type.withInfo info).Valid := by
  cases h with
  | encoded _ htype => exact .encoded hinfo (hpresence ▸ htype)
  | composite _ hmembers hnames hspaced => exact .composite hinfo hmembers hnames hspaced
  | enum _ htype => exact .enum hinfo (hpresence ▸ htype)
  | set _ htype => exact .set hinfo htype

def freed : DataType → DataType
  | .encoded info type =>
    if info.name = "varData" then .encoded info { type with isVariable := true }
    else .encoded info type
  | member => member

theorem asVarData_composite (info : TypeInfo) (members : List DataType) :
    (composite info members).asVarData = .composite info (members.map freed) := by
  refine congrArg (composite info) (List.map_congr_left fun member _ => ?_)
  cases member <;> rfl

theorem freed_eq_or (member : DataType) :
    member.freed = member ∨ member.freed.isVariable = true := by
  cases member with
  | encoded info type =>
    rw [freed]
    split
    · exact .inr rfl
    · exact .inl rfl
  | composite => exact .inl rfl
  | enum => exact .inl rfl
  | set => exact .inl rfl

@[simp] theorem info_freed (member : DataType) : member.freed.info = member.info := by
  cases member with
  | encoded info type =>
    rw [freed]
    split <;> rfl
  | composite => rfl
  | enum => rfl
  | set => rfl

theorem Valid.freed {member : DataType} (h : member.Valid) : member.freed.Valid := by
  cases h with
  | encoded hinfo htype =>
    rw [DataType.freed]
    split
    · exact .encoded hinfo ⟨htype.length, htype.fits, htype.characterEncoding, htype.constant,
        htype.constValue, htype.minValue, htype.maxValue, htype.nullValue⟩
    · exact .encoded hinfo htype
  | composite hinfo hmembers hnames hspaced => exact .composite hinfo hmembers hnames hspaced
  | enum hinfo htype => exact .enum hinfo htype
  | set hinfo htype => exact .set hinfo htype

theorem Spaced.freed {members : List DataType} {offset : Int} (h : Spaced offset members) :
    Spaced offset (members.map DataType.freed) := by
  induction members generalizing offset with
  | nil => exact h
  | cons member rest ih =>
    obtain ⟨hstart, hrest⟩ := h
    have hsame : member.freed.start offset = member.start offset := by
      unfold start
      rw [info_freed]
    refine ⟨hsame ▸ hstart, fun hfixed => ?_⟩
    rcases freed_eq_or member with heq | hvariable
    · rw [heq] at hfixed ⊢
      exact ⟨(hrest hfixed).1, ih (hrest hfixed).2⟩
    · rw [hvariable] at hfixed
      cases hfixed

/-- The type of a data element keeps every rule of the composite it is from. -/
theorem Valid.asVarData {info : TypeInfo} {members : List DataType}
    (h : (DataType.composite info members).Valid) :
    (DataType.composite info members).asVarData.Valid := by
  rw [asVarData_composite]
  cases h with
  | composite hinfo hmembers hnames hspaced =>
    refine .composite hinfo ?_ ?_ hspaced.freed
    · intro member hmember
      obtain ⟨original, horiginal, rfl⟩ := List.mem_map.mp hmember
      exact (hmembers original horiginal).freed
    · refine List.pairwise_map.mpr (hnames.imp fun hne => ?_)
      unfold name at hne ⊢
      rwa [info_freed, info_freed]

theorem valid_ofPrimitive (primitive : Primitive) : (ofPrimitive primitive).Valid := by
  refine .encoded ⟨?_, nofun, nofun⟩ ⟨?_, ?_, nofun, nofun, nofun, nofun, nofun, nofun⟩
  · cases primitive <;> decide +kernel
  · exact show (0 : Int) ≤ (1 : Int32).toInt by decide
  · cases primitive <;> decide

end DataType

structure FieldInfo.Valid (version : Int32) (info : FieldInfo) : Prop where
  name : Text.isName info.name = true
  description : info.description ≠ some ""
  semanticType : info.semanticType ≠ some ""
  epoch : info.epoch ≠ ""
  timeUnit : info.timeUnit ≠ ""
  valueRef : info.valueRef ≠ some ""
  sinceVersion : ¬ version < info.sinceVersion

def FieldInfo.declared (info : FieldInfo) : FieldInfo :=
  { info with
    computedOffset := 0, computedBlockLength := 0
    entryCountField := none, groupField := none, lengthField := none, dataField := none }

def FieldInfo.unlinked (info : FieldInfo) : FieldInfo :=
  { info with entryCountField := none, groupField := none, lengthField := none, dataField := none }

theorem FieldInfo.declared_of_unlinked {a b : FieldInfo} (h : a.unlinked = b.unlinked) :
    a.declared = b.declared :=
  show a.unlinked.declared = b.unlinked.declared from congrArg declared h

theorem FieldInfo.Valid.of_declared {version : Int32} {a b : FieldInfo} (h : a.Valid version)
    (heq : b.declared = a.declared) : b.Valid version where
  name := congrArg FieldInfo.name heq ▸ h.name
  description := congrArg FieldInfo.description heq ▸ h.description
  semanticType := congrArg FieldInfo.semanticType heq ▸ h.semanticType
  epoch := congrArg FieldInfo.epoch heq ▸ h.epoch
  timeUnit := congrArg FieldInfo.timeUnit heq ▸ h.timeUnit
  valueRef := congrArg FieldInfo.valueRef heq ▸ h.valueRef
  sinceVersion := congrArg FieldInfo.sinceVersion heq ▸ h.sinceVersion

def DataType.Measures (members : List DataType) (name : String) : Prop :=
  ∃ type, encodedMember? members name = some type ∧ type.primitive.isUnsigned = true

namespace Field

/-- A reference `Enum.Value` to a valid value of a declared enum. -/
def RefersTo (types : Table String DataType) (reference : String) : Prop :=
  ∃ enumName valueName enum, Text.dottedName? reference = some (enumName, valueName) ∧
    (types.get? enumName).bind DataType.enum? = some enum ∧
    (enum.value? valueName).isSome = true

def rank : Field → Nat
  | .plain .. => 0
  | .group .. => 1
  | .data .. => 2

def outline (field : Field) : Nat × String × Int32 := (field.rank, field.name, field.info.id)

/-- In order, no two of one name, and no two of one identity if they have one. -/
def Siblings (fields : List Field) : Prop :=
  (fields.map outline).Pairwise fun a b =>
    a.1 ≤ b.1 ∧ a.2.1 ≠ b.2.1 ∧ (a.2.2 ≠ invalidId → a.2.2 ≠ b.2.2)

inductive Valid (types : Table String DataType) (version : Int32) : Field → Prop where
  | plain {info : FieldInfo} {type : DataType} :
      info.Valid version → type.Valid → (∀ reference ∈ info.valueRef, RefersTo types reference) →
      Valid types version (.plain info type)
  | group {info : FieldInfo} {dimension : TypeInfo} {members : List DataType} {blockLength : Int32}
      {fields : List Field} :
      info.Valid version → (DataType.composite dimension members).Valid →
      DataType.Measures members "blockLength" → DataType.Measures members "numInGroup" →
      (∀ field ∈ fields, Valid types version field) → Siblings fields →
      Valid types version (.group info (.composite dimension members) blockLength fields)
  | data {info : FieldInfo} {type : TypeInfo} {members : List DataType} :
      info.Valid version → (DataType.composite type members).Valid →
      types.get? type.name = some (.composite type members) →
      DataType.Measures members "length" →
      (DataType.encodedMember? members "varData").isSome = true →
      Valid types version (.data info (DataType.composite type members).asVarData)

structure Row (types : Table String DataType) (version : Int32) (fields : List Field) : Prop where
  valid : ∀ field ∈ fields, field.Valid types version
  siblings : Siblings fields

def typeInside : Field → DataType
  | .plain _ type => type
  | .group _ dimension _ _ => dimension
  | .data _ type => type

theorem Valid.typeInside {field : Field} {types : Table String DataType} {version : Int32}
    (h : field.Valid types version) : field.typeInside.Valid := by
  cases h with
  | plain _ htype _ => exact htype
  | group _ hdimension => exact hdimension
  | data _ htype => exact htype.asVarData

mutual

def throughout (kind : Field → Bool) : Field → Bool
  | .plain info type => kind (.plain info type)
  | .group info dimension blockLength fields =>
    kind (.group info dimension blockLength fields) && everywhere kind fields
  | .data info type => kind (.data info type)

def everywhere (kind : Field → Bool) : List Field → Bool
  | [] => true
  | field :: rest => field.throughout kind && everywhere kind rest

end

mutual

theorem throughout_true : ∀ field : Field, field.throughout (fun _ => true) = true
  | .plain .. => rfl
  | .group _ _ _ fields => everywhere_true fields
  | .data .. => rfl

theorem everywhere_true : ∀ fields : List Field, everywhere (fun _ => true) fields = true
  | [] => rfl
  | field :: rest => Bool.and_eq_true_iff.mpr ⟨throughout_true field, everywhere_true rest⟩

end

mutual

theorem throughout_mono {a b : Field → Bool} (h : ∀ field, a field = true → b field = true) :
    ∀ field : Field, field.throughout a = true → field.throughout b = true
  | .plain .. => h _
  | .data .. => h _
  | .group _ _ _ fields => by
    rw [throughout, throughout, Bool.and_eq_true, Bool.and_eq_true]
    exact fun hall => ⟨h _ hall.1, everywhere_mono h fields hall.2⟩

theorem everywhere_mono {a b : Field → Bool} (h : ∀ field, a field = true → b field = true) :
    ∀ fields : List Field, everywhere a fields = true → everywhere b fields = true
  | [] => fun _ => rfl
  | field :: rest => by
    rw [everywhere, everywhere, Bool.and_eq_true, Bool.and_eq_true]
    exact fun hall => ⟨throughout_mono h field hall.1, everywhere_mono h rest hall.2⟩

end

mutual

theorem throughout_and {a b : Field → Bool} : ∀ field : Field, field.throughout a = true →
    field.throughout b = true → field.throughout (fun field => a field && b field) = true
  | .plain .. => fun ha hb => Bool.and_eq_true_iff.mpr ⟨ha, hb⟩
  | .data .. => fun ha hb => Bool.and_eq_true_iff.mpr ⟨ha, hb⟩
  | .group _ _ _ fields => by
    simp only [throughout, Bool.and_eq_true]
    exact fun ha hb => ⟨⟨ha.1, hb.1⟩, everywhere_and fields ha.2 hb.2⟩

theorem everywhere_and {a b : Field → Bool} : ∀ fields : List Field, everywhere a fields = true →
    everywhere b fields = true → everywhere (fun field => a field && b field) fields = true
  | [] => fun _ _ => rfl
  | field :: rest => by
    simp only [everywhere, Bool.and_eq_true]
    exact fun ha hb => ⟨throughout_and field ha.1 hb.1, everywhere_and rest ha.2 hb.2⟩

end

theorem throughout_of_mem {kind : Field → Bool} {fields : List Field}
    (h : everywhere kind fields = true) {field : Field} (hfield : field ∈ fields) :
    field.throughout kind = true := by
  induction fields with
  | nil => cases hfield
  | cons first rest ih =>
    rw [everywhere, Bool.and_eq_true] at h
    rcases List.mem_cons.mp hfield with rfl | hrest
    · exact h.1
    · exact ih h.2 hrest

variable {types : Table String DataType} {version : Int32} {field : Field}

theorem Valid.info (h : field.Valid types version) : field.info.Valid version := by
  cases h <;> assumption

/-- Links and places make no difference. -/
theorem Valid.mapInfo {change : FieldInfo → FieldInfo} (h : field.Valid types version)
    (hchange : ∀ info, (change info).declared = info.declared) :
    (field.mapInfo change).Valid types version := by
  cases h with
  | @plain info _ hinfo htype href =>
    have hsame : (change info).declared.valueRef = info.declared.valueRef := by
      rw [hchange info]
    exact .plain (hinfo.of_declared (hchange info)) htype fun reference hreference =>
      href reference (hsame ▸ hreference)
  | group hinfo hdimension hlength hcount hfields hsiblings =>
    exact .group (hinfo.of_declared (hchange _)) hdimension hlength hcount hfields hsiblings
  | data hinfo htype hknown hlength hdata =>
    exact .data (hinfo.of_declared (hchange _)) htype hknown hlength hdata

theorem outline_mapInfo {change : FieldInfo → FieldInfo}
    (hchange : ∀ info, (change info).declared = info.declared) (field : Field) :
    (field.mapInfo change).outline = field.outline := by
  have hname : (change field.info).declared.name = field.info.declared.name := by
    rw [hchange field.info]
  have hid : (change field.info).declared.id = field.info.declared.id := by
    rw [hchange field.info]
  have hrank : (field.mapInfo change).rank = field.rank := by cases field <;> rfl
  unfold outline name
  rw [info_mapInfo, hrank]
  exact Prod.ext rfl (Prod.ext hname hid)

/-- A view that does not see the change is the same wherever it is made. -/
theorem map_modify {α : Type} {view : Field → α} {fields : List Field}
    {change : FieldInfo → FieldInfo}
    (hview : ∀ field, view (field.mapInfo change) = view field) (index : Nat) :
    (fields.modify index (·.mapInfo change)).map view = fields.map view := by
  apply List.ext_getElem?
  intro place
  rw [List.getElem?_map, List.getElem?_map, List.getElem?_modify]
  cases fields[place]? with
  | none => rfl
  | some field =>
    simp only [Option.map_eq_map, Option.map_some]
    split
    · rw [hview]
    · rfl

theorem Row.modify {fields : List Field} {change : FieldInfo → FieldInfo}
    (h : Row types version fields) (hchange : ∀ info, (change info).declared = info.declared)
    (index : Nat) : Row types version (fields.modify index (·.mapInfo change)) where
  valid := by
    intro field hfield
    obtain ⟨at', hat⟩ := List.mem_iff_getElem?.mp hfield
    rw [List.getElem?_modify] at hat
    obtain ⟨old, hold, rfl⟩ := Option.map_eq_some_iff.mp hat
    have hvalid := h.valid old (List.mem_of_getElem? hold)
    split
    · exact hvalid.mapInfo hchange
    · exact hvalid
  siblings := by
    unfold Siblings
    rw [map_modify (outline_mapInfo hchange)]
    exact h.siblings

end Field

structure Message.Valid (types : Table String DataType) (version : Int32) (message : Message) :
    Prop where
  name : Text.isName message.name = true
  description : message.description ≠ some ""
  semanticType : message.semanticType ≠ some ""
  row : Field.Row types version message.fields

end SimpleBinary
