import SimpleBinary.Proofs.Schema.Earlier
import SimpleBinary.Proofs.Schema.Parts
import SimpleBinary.Proofs.Walk.Numbers

/-! The names of what is in a buffer. Choices that were written as the bits of
their set are told by their names, in the order of the set; and a byte is told
as the one valid value of its enum that it is, if there is one. -/
namespace SimpleBinary

namespace NamedValue

def position (choice : NamedValue) : Nat :=
  (choice.value.asLong?.map fun n => n.toInt.toNat).getD 0

def bits (chosen : List NamedValue) : Nat :=
  chosen.foldr (fun choice rest => 1 <<< choice.position ||| rest) 0

theorem testBit_bits {chosen : List NamedValue} {i : Nat} :
    (bits chosen).testBit i = true ↔ ∃ choice ∈ chosen, choice.position = i := by
  induction chosen with
  | nil => simp [bits]
  | cons first rest ih =>
    have hfirst : (1 <<< first.position).testBit i = decide (first.position = i) := by
      rw [Nat.one_shiftLeft, Nat.testBit_two_pow]
    unfold bits at ih ⊢
    rw [List.foldr_cons, Nat.testBit_or, hfirst, Bool.or_eq_true, ih]
    simp

/-- Bits below the width of an encoding are a number that it has room for. -/
theorem bits_lt {chosen : List NamedValue} {width : Nat}
    (h : ∀ choice ∈ chosen, choice.position < 8 * width) :
    bits chosen < Nat.pow 256 width := by
  have hclear : ∀ i, i ≥ 8 * width → (bits chosen).testBit i = false := by
    intro i hi
    apply Bool.eq_false_iff.mpr
    intro hbit
    obtain ⟨choice, hchoice, rfl⟩ := testBit_bits.mp hbit
    exact absurd (h choice hchoice) (Nat.not_lt.mpr hi)
  have hlt := Nat.lt_pow_two_of_testBit (bits chosen) hclear
  rw [Nat.pow_mul] at hlt
  exact hlt

theorem IsBit.position_lt {encoding : Primitive} {choice : NamedValue} (h : choice.IsBit encoding) :
    choice.position < 8 * encoding.size := by
  obtain ⟨n, size, hvalue, hlow, hhigh⟩ := h
  simp only [position, hvalue, Value.asLong?, Option.map_some, Option.getD_some]
  omega

theorem IsBit.position?_eq {encoding primitive : Primitive} {choice : NamedValue}
    (h : choice.IsBit encoding) (order : ByteOrder) :
    Walk.position? (Generate.namedToken order .choice primitive choice) = some choice.position := by
  have hsize : encoding.size ≤ 8 := by cases encoding <;> decide
  obtain ⟨n, size, hvalue, hlow, hhigh⟩ := h
  simp only [Walk.position?, Generate.namedToken, position, hvalue, Value.asLong?, Option.bind_some,
    Option.map_some, Option.getD_some]
  exact if_pos ⟨hlow, by omega⟩

theorem Distinct.eq_of_number {values : List NamedValue} {a b : NamedValue} (h : Distinct values)
    (ha : a ∈ values) (hb : b ∈ values) (hsame : a.value.asLong? = b.value.asLong?) : a = b := by
  have hnumbers : values.Pairwise fun a b => a.value.asLong? ≠ b.value.asLong? := h.imp And.right
  have hfound := find?_key hnumbers ha
  rw [hsame, find?_key hnumbers hb] at hfound
  exact (Option.some.inj hfound).symm

theorem Distinct.eq_of_position {encoding : Primitive} {choices : List NamedValue}
    {a b : NamedValue} (h : Distinct choices) (hbits : ∀ choice ∈ choices, choice.IsBit encoding)
    (ha : a ∈ choices) (hb : b ∈ choices) (hsame : a.position = b.position) : a = b := by
  apply h.eq_of_number ha hb
  obtain ⟨n, _, hn, hnlow, -⟩ := hbits a ha
  obtain ⟨m, _, hm, hmlow, -⟩ := hbits b hb
  simp only [position, hn, hm, Value.asLong?, Option.map_some, Option.getD_some] at hsame ⊢
  have hinteger : n.toInt = m.toInt := by omega
  rw [Int64.toInt_inj.mp hinteger]

/-- A bit of the choices that were made is the bit of one of them. -/
theorem Distinct.testBit_position {encoding : Primitive} {choices chosen : List NamedValue}
    {choice : NamedValue} (h : Distinct choices)
    (hbits : ∀ choice ∈ choices, choice.IsBit encoding)
    (hchosen : ∀ choice ∈ chosen, choice ∈ choices) (hchoice : choice ∈ choices) :
    (bits chosen).testBit choice.position = true ↔ choice ∈ chosen := by
  rw [testBit_bits]
  constructor
  · rintro ⟨other, hother, hsame⟩
    rwa [← h.eq_of_position hbits (hchosen other hother) hchoice hsame]
  · intro hmem
    exact ⟨choice, hmem, rfl⟩

/-- At most one value has a number, and that one is found by it. -/
theorem Distinct.find?_eq_some_iff {values : List NamedValue} (h : Distinct values)
    {named : NamedValue} {number : Option Int64} :
    values.find? (fun other => other.value.asLong? = number) = some named ↔
      named ∈ values ∧ named.value.asLong? = number := by
  constructor
  · intro hfound
    exact ⟨List.mem_of_find?_eq_some hfound, by simpa using List.find?_some hfound⟩
  · rintro ⟨hmem, rfl⟩
    exact find?_key (h.imp And.right) hmem

/-- A valid value is a byte if it is the number of the byte. -/
def IsByte (named : NamedValue) (byte : UInt8) : Prop :=
  ∃ n size, named.value = .long n size ∧ n.toInt = byte.toNat

theorem isByte_iff {named : NamedValue} {byte : UInt8} :
    named.IsByte byte ↔ named.value.asLong? = some (Int64.ofNat byte.toNat) := by
  have hbyte : (Int64.ofNat byte.toNat).toInt = byte.toNat := by
    have hlt := byte.toNat_lt
    exact Int64.toInt_ofNat_of_lt (by omega)
  unfold IsByte
  cases named.value with
  | long n size =>
    simp only [Value.asLong?, Option.some.injEq, ← Int64.toInt_inj, hbyte]
    constructor
    · rintro ⟨_, _, heq, hn⟩
      cases heq
      exact hn
    · intro hn
      exact ⟨n, size, rfl, hn⟩
  | double d size => simp [Value.asLong?]
  | bytes content characterEncoding => simp [Value.asLong?]

end NamedValue

namespace Walk
open Generate

/-- The tokens of a type, at an offset and in a field or in none, whatever they
count. -/
def IsRunOf (order : ByteOrder) (type : DataType) (run : List Token) : Prop :=
  ∃ offset field,
    run.map Token.uncounted = (typeTokens order offset field type).map Token.uncounted

theorem isRunOf_recount (order : ByteOrder) (type : DataType) (offset : Int)
    (field : Option FieldInfo) :
    IsRunOf order type (Token.recount (typeTokens order offset field type)) :=
  ⟨offset, field, Token.uncounted_recount (nested_typeTokens order type offset field)⟩

theorem choiceNames_uncounted (run : List Token) (bits : UInt64) :
    choiceNames (run.map Token.uncounted) bits = choiceNames run bits := by
  unfold choiceNames
  rw [List.filter_map, List.map_map]
  rfl

theorem enumValueName?_uncounted (run : List Token) (value : Value) :
    enumValueName? (run.map Token.uncounted) value = enumValueName? run value := by
  unfold enumValueName?
  rw [List.find?_map, Option.map_map]
  rfl

theorem choiceNames_setTokens (order : ByteOrder) (info : TypeInfo) (type : SetType) (offset : Int)
    (field : Option FieldInfo) (bits : UInt64) :
    choiceNames (setTokens order info type offset field) bits =
      (type.choices.filter fun choice =>
        (position? (namedToken order .choice type.encoding choice)).any (isChoiceSet bits)).map
        (·.name) := by
  unfold choiceNames setTokens bracketed
  rw [List.cons_append, List.filter_cons_of_neg (by simp [typeToken]), List.filter_append,
    List.filter_map, List.filter_cons_of_neg (by simp [typeToken]), List.filter_nil,
    List.append_nil, List.map_map]
  congr 1

theorem enumValueName?_enumTokens (order : ByteOrder) (info : TypeInfo) (type : EnumType)
    (offset : Int) (field : Option FieldInfo) (value : Value) :
    enumValueName? (enumTokens order info type offset field) value =
      (type.values.find? fun named => named.value.asLong? = value.asLong?).map (·.name) := by
  unfold enumValueName? enumTokens bracketed
  rw [List.cons_append, List.find?_cons_of_neg (by simp [typeToken]), List.find?_append,
    List.find?_map, List.find?_cons_of_neg (by simp [typeToken]), List.find?_nil, Option.or_none,
    Option.map_map]
  congr 1

/-- However choices are written, in either order of the bytes and wherever in a
buffer, their names are told in the order of the set. -/
def TellsChoices (type : SetType) (run : List Token) : Prop :=
  ∀ chosen : List NamedValue, (∀ choice ∈ chosen, choice ∈ type.choices) →
  ∀ (order : ByteOrder) (buffer : List UInt8) (index : Nat),
    (Value.long (Int64.ofNat (NamedValue.bits chosen)) type.encoding.size).toBytes order <+:
      buffer.drop index →
    (readInteger buffer index type.encoding order).map
      (fun word => choiceNames run word.toUInt64) =
        .ok ((type.choices.filter (· ∈ chosen)).map (·.name))

/-- Whatever byte is in a buffer, it is told as the valid value that it is, and
never two are that. -/
def TellsValue (type : EnumType) (run : List Token) : Prop :=
  ∃ opening rest, run = opening :: rest ∧ opening.signal = .beginEnum ∧
    ∀ (version : Int32) (buffer : List UInt8) (index : Nat) (byte : UInt8),
      ¬ version < opening.version → buffer[index]? = some byte →
      (∃ value, readValue buffer index opening version = .ok value ∧
        ∀ name, enumValueName? run value = some name ↔
          ∃ named ∈ type.values, named.name = name ∧ named.IsByte byte) ∧
      type.values.Pairwise fun a b => ¬ (a.IsByte byte ∧ b.IsByte byte)

theorem choiceNames_bits {type : SetType} {chosen : List NamedValue} {bits : UInt64}
    (hvalid : type.Valid) (hchosen : ∀ choice ∈ chosen, choice ∈ type.choices)
    (hbits : bits.toNat = NamedValue.bits chosen) (order : ByteOrder) (info : TypeInfo)
    (offset : Int) (field : Option FieldInfo) :
    choiceNames (setTokens order info type offset field) bits =
      (type.choices.filter (· ∈ chosen)).map (·.name) := by
  have hdistinct := hvalid.choices.distinct_numbers
    (Primitive.isFloating_of_isUnsigned hvalid.encoding)
  have hsize : type.encoding.size ≤ 8 := by cases type.encoding <;> decide
  rw [choiceNames_setTokens]
  apply congrArg
  apply List.filter_congr
  intro choice hchoice
  have hposition := hvalid.positions choice hchoice
  have hlt := hposition.position_lt
  have hset : isChoiceSet bits choice.position =
      (NamedValue.bits chosen).testBit choice.position := by
    rw [isChoiceSet, hbits, decide_eq_true (show choice.position < 64 by omega), Bool.true_and]
  rw [hposition.position?_eq order, Option.any_some, hset, Bool.eq_iff_iff,
    hdistinct.testBit_position hvalid.positions hchosen hchoice, decide_eq_true_eq]

theorem tellsChoices_of_valid {info : TypeInfo} {type : SetType} {order : ByteOrder}
    {run : List Token} (hvalid : type.Valid) (hrun : IsRunOf order (.set info type) run) :
    TellsChoices type run := by
  intro chosen hchosen wire buffer index hwritten
  obtain ⟨offset, field, hrun⟩ := hrun
  have hroom : hasRoom type.encoding (NamedValue.bits chosen) = true := by
    apply decide_eq_true
    apply NamedValue.bits_lt
    intro choice hchoice
    exact (hvalid.positions choice (hchosen choice hchoice)).position_lt
  have hbits := toNat_toUInt64_ofNat hroom
  have hbytes : (buffer.drop index).take type.encoding.size =
      number wire type.encoding (NamedValue.bits chosen) := by
    rw [List.prefix_iff_eq_take, Value.length_toBytes_long, Value.toBytes_long, hbits] at hwritten
    exact hwritten.symm
  have hnames : choiceNames run (Int64.ofNat (NamedValue.bits chosen)).toUInt64 =
      (type.choices.filter (· ∈ chosen)).map (·.name) := by
    rw [← choiceNames_uncounted, hrun, choiceNames_uncounted]
    exact choiceNames_bits hvalid hchosen hbits order info offset field
  rw [readInteger_number hvalid.encoding hroom hbytes, Except.map, hnames]

section
variable {type : EnumType} {byte : UInt8}

theorem read?_byte {primitive : Primitive} {buffer : List UInt8} {index : Nat}
    (hprimitive : primitive = .char ∨ primitive = .uint8) (hbyte : buffer[index]? = some byte)
    (order : ByteOrder) :
    Value.read? buffer index primitive order = some (.long (Int64.ofNat byte.toNat) 1) := by
  obtain ⟨hindex, hbyte⟩ := List.getElem?_eq_some_iff.mp hbyte
  have hsize : primitive.size = 1 := by rcases hprimitive with rfl | rfl <;> rfl
  have hbytes : (buffer.drop index).take primitive.size = [byte] := by
    rw [List.drop_eq_getElem_cons hindex, hbyte, hsize]
    rfl
  have harranged : Bytes.arrange order [byte] = [byte] := by cases order <;> rfl
  unfold Value.read?
  rw [if_pos (by omega), hbytes]
  dsimp only
  rw [harranged]
  rcases hprimitive with rfl | rfl <;> rfl

/-- A token of one element that is there, and is not a constant, has the value
of the element. -/
theorem readValue_single {token : Token} {primitive : Primitive} {version : Int32}
    {buffer : List UInt8} {index : Nat} {value : Value} (hversion : ¬ version < token.version)
    (hpresence : token.encoding.presence ≠ .constant)
    (hprimitive : token.encoding.primitive = some primitive)
    (hsize : token.size.toInt = primitive.size)
    (hread : Value.read? buffer index primitive token.encoding.byteOrder = some value) :
    readValue buffer index token version = .ok value := by
  have hpositive := primitive.size_pos
  have hsingle : token.arrayLength = 1 := by
    simp only [Token.arrayLength, hprimitive, hsize]
    rw [if_pos (by omega), Int.ediv_self (by omega)]
  simp only [readValue, if_neg hversion, if_neg hpresence, hprimitive, hsingle,
    if_neg (Int.lt_irrefl 1), hread]

theorem enumValueName?_byte (hdistinct : NamedValue.Distinct type.values) (order : ByteOrder)
    (info : TypeInfo) (offset : Int) (field : Option FieldInfo) (name : String) :
    enumValueName? (enumTokens order info type offset field)
        (.long (Int64.ofNat byte.toNat) 1) = some name ↔
      ∃ named ∈ type.values, named.name = name ∧ named.IsByte byte := by
  rw [enumValueName?_enumTokens, Option.map_eq_some_iff]
  constructor
  · rintro ⟨named, hfound, rfl⟩
    obtain ⟨hmem, hnumber⟩ := hdistinct.find?_eq_some_iff.mp hfound
    exact ⟨named, hmem, rfl, NamedValue.isByte_iff.mpr hnumber⟩
  · rintro ⟨named, hmem, rfl, hbyte⟩
    have hnumber := NamedValue.isByte_iff.mp hbyte
    exact ⟨named, hdistinct.find?_eq_some_iff.mpr ⟨hmem, hnumber⟩, rfl⟩

theorem tellsValue_of_valid {info : TypeInfo} {order : ByteOrder} {run : List Token}
    (hvalid : type.Valid info.presence) (hconstant : info.presence ≠ .constant)
    (hrun : IsRunOf order (.enum info type) run) : TellsValue type run := by
  obtain ⟨offset, field, hrun⟩ := hrun
  change run.map Token.uncounted =
    (enumTokens order info type offset field).map Token.uncounted at hrun
  have hdistinct := hvalid.values.distinct_numbers
    (Primitive.isFloating_of_narrow hvalid.encoding)
  have hnames : ∀ value, enumValueName? run value =
      enumValueName? (enumTokens order info type offset field) value := by
    intro value
    rw [← enumValueName?_uncounted, hrun, enumValueName?_uncounted]
  cases run with
  | nil => cases hrun
  | cons opening rest =>
    obtain ⟨hopening, -⟩ := List.cons.inj hrun
    have hsignal : opening.signal = .beginEnum := congrArg Token.signal hopening
    have hsize : opening.size.toInt = type.encoding.size := by
      rw [show opening.size = Int32.ofInt type.encoding.size from congrArg Token.size hopening]
      rcases hvalid.encoding with hchar | hbyte
      · rw [hchar]
        rfl
      · rw [hbyte]
        rfl
    have hencoding := congrArg Token.encoding hopening
    refine ⟨opening, rest, rfl, hsignal, fun version buffer index byte hversion hbyte => ⟨?_, ?_⟩⟩
    · refine ⟨_, readValue_single hversion ?_ (congrArg Encoding.primitive hencoding) hsize
        (read?_byte hvalid.encoding hbyte _), fun name => ?_⟩
      · have hpresence : opening.encoding.presence = info.presence :=
          congrArg Encoding.presence hencoding
        rwa [hpresence]
      · rw [hnames, enumValueName?_byte hdistinct]
    · apply hdistinct.imp
      rintro a b ⟨-, hdifferent⟩ ⟨ha, hb⟩
      exact hdifferent ((NamedValue.isByte_iff.mp ha).trans (NamedValue.isByte_iff.mp hb).symm)

end

end Walk

namespace Field
variable {types : Table String DataType} {version : Int32}

theorem Within.valid {fields : List Field} {field : Field} (h : Within fields field)
    (hfields : ∀ other ∈ fields, other.Valid types version) : field.Valid types version := by
  induction h with
  | here hmem => exact hfields _ hmem
  | inside hgroup _ ih =>
    cases hfields _ hgroup with
    | group _ _ _ _ hinner _ => exact ih hinner

end Field

namespace Schema

/-- The types of a schema: what it declares, what stands inside the fields of
its messages, and the parts of these, at any depth. -/
inductive Uses (schema : Schema) (part : DataType) : Prop where
  | declared {entry : String × DataType} :
      entry ∈ schema.types.entries → part.Inside entry.2 → Uses schema part
  | field {message : Message} {field : Field} :
      message ∈ schema.messages.values → Field.Within message.fields field →
      part.Inside field.typeInside → Uses schema part

theorem Valid.uses {schema : Schema} {part : DataType} (hvalid : schema.Valid)
    (h : schema.Uses part) : part.Valid := by
  cases h with
  | declared hentry hinside => exact (hvalid.types _ hentry).1.inside hinside
  | field hmessage hwithin hinside =>
    have hfield := hwithin.valid (hvalid.message hmessage).row.valid
    exact hfield.typeInside.inside hinside

/-- In an accepted schema every set tells the choices that were written, and
every enum that is not a constant tells the valid value that a byte is. -/
theorem tellsNames_of_parse {document : String} {policy : Policy} {schema : Schema}
    (h : parse document policy = .ok schema) :
    (∀ (info : TypeInfo) (type : SetType), schema.Uses (.set info type) →
      ∀ order run, Walk.IsRunOf order (.set info type) run → Walk.TellsChoices type run) ∧
    ∀ (info : TypeInfo) (type : EnumType), schema.Uses (.enum info type) →
      info.presence ≠ .constant →
      ∀ order run, Walk.IsRunOf order (.enum info type) run → Walk.TellsValue type run := by
  have hvalid := valid_of_parse h
  constructor
  · intro info type huses order run hrun
    cases hvalid.uses huses with
    | set _ htype => exact Walk.tellsChoices_of_valid htype hrun
  · intro info type huses hconstant order run hrun
    cases hvalid.uses huses with
    | enum _ htype => exact Walk.tellsValue_of_valid htype hconstant hrun

/-- A document with a set of 64 bits inside a composite, its highest bit first,
and with an enum that has a value above those of ASCII. -/
def marked : String :=
  withHeader "<messageSchema package='p' id='7'><types>"
    "<composite name='State'><set name='Flags' encodingType='uint64'>
    <choice name='Top'>63</choice><choice name='Mid'>5</choice><choice name='Low'> 0 </choice></set>
    </composite><enum name='Level' encodingType='uint8'><validValue name='High'>200</validValue>
    <validValue name='Base'>1</validValue></enum></types></messageSchema>"

def markedFlags : SetType where
  encoding := .uint64
  choices := [{ name := "Top", value := .long 63 8 }, { name := "Mid", value := .long 5 8 },
    { name := "Low", value := .long 0 8 }]

def markedLevel : EnumType where
  encoding := .uint8
  values := [{ name := "High", value := .long 200 1 }, { name := "Base", value := .long 1 1 }]

/-- The first member of `State`, and the enum with its presence. -/
structure Marks where
  flags : Option SetType
  level : Option EnumType
  presence : Option Presence
  deriving DecidableEq

def marks (schema : Schema) : Marks where
  flags := (((schema.types.get? "State").bind DataType.composite?).bind (·.head?)).bind
    DataType.set?
  level := (schema.types.get? "Level").bind DataType.enum?
  presence := (schema.types.get? "Level").map (·.info.presence)

theorem marks_marked : (parse marked {}).toOption.map marks = some {
    flags := some markedFlags, level := some markedLevel, presence := some .required } := by
  rw [marked, parse_withHeader String.toList_ofList String.toList_ofList]
  decide +kernel

theorem uses_marked {schema : Schema} (h : schema.marks =
      { flags := some markedFlags, level := some markedLevel, presence := some .required }) :
    (∃ info, schema.Uses (.set info markedFlags)) ∧
      ∃ info, info.presence ≠ .constant ∧ schema.Uses (.enum info markedLevel) := by
  obtain ⟨hflags, hlevel, hpresence⟩ := Marks.mk.inj h
  constructor
  · obtain ⟨member, hmember, hset⟩ := Option.bind_eq_some_iff.mp hflags
    obtain ⟨members, hmembers, hhead⟩ := Option.bind_eq_some_iff.mp hmember
    obtain ⟨state, hstate, hcomposite⟩ := Option.bind_eq_some_iff.mp hmembers
    obtain ⟨stateInfo, rfl⟩ := DataType.exists_of_composite? hcomposite
    cases member with
    | set info type =>
      cases hset
      have hinside : (DataType.set info markedFlags).Inside (.composite stateInfo members) :=
        .member (List.mem_of_mem_head? hhead) .self
      exact ⟨info, .declared (Table.mem_of_get? hstate) hinside⟩
    | _ => cases hset
  · obtain ⟨level, hget, henum⟩ := Option.bind_eq_some_iff.mp hlevel
    obtain ⟨info, rfl⟩ := DataType.exists_of_enum? henum
    rw [hget] at hpresence
    have hrequired : info.presence = .required := Option.some.inj hpresence
    refine ⟨info, ?_, .declared (Table.mem_of_get? hget) .self⟩
    rw [hrequired]
    decide

/-- The lowest and the highest bit, the highest byte first, and a byte that is
not one of ASCII. -/
theorem tellsNames_marked :
    ∃ schema, parse marked {} = .ok schema ∧
      (∃ info, schema.Uses (.set info markedFlags) ∧
        (Walk.readInteger [9, 0x80, 0, 0, 0, 0, 0, 0, 1] 1 .uint64 .big).map (fun word =>
          Walk.choiceNames (Token.recount (Generate.typeTokens .little 0 none
            (.set info markedFlags))) word.toUInt64) = .ok ["Top", "Low"]) ∧
      ∃ info, schema.Uses (.enum info markedLevel) ∧ info.presence ≠ .constant ∧
        ∃ opening rest value, Token.recount (Generate.typeTokens .little 0 none
            (.enum info markedLevel)) = opening :: rest ∧
          Walk.readValue [9, 200] 1 opening opening.version = .ok value ∧
          Walk.enumValueName? (opening :: rest) value = some "High" := by
  obtain ⟨schema, hparse, hview⟩ := exists_of_parse marks_marked
  obtain ⟨⟨setInfo, hset⟩, enumInfo, hpresence, henum⟩ := uses_marked hview
  obtain ⟨hchoices, hvalues⟩ := tellsNames_of_parse hparse
  refine ⟨schema, hparse, ⟨setInfo, hset, ?_⟩, enumInfo, henum, hpresence, ?_⟩
  · have hrun := Walk.isRunOf_recount .little (.set setInfo markedFlags) 0 none
    exact hchoices setInfo markedFlags hset .little _ hrun
      [{ name := "Low", value := .long 0 8 }, { name := "Top", value := .long 63 8 }]
      (by decide) .big [9, 0x80, 0, 0, 0, 0, 0, 0, 1] 1 (by decide)
  · have hrun := Walk.isRunOf_recount .little (.enum enumInfo markedLevel) 0 none
    obtain ⟨opening, rest, hopening, -, htells⟩ :=
      hvalues enumInfo markedLevel henum hpresence .little _ hrun
    obtain ⟨⟨value, hvalue, hname⟩, -⟩ :=
      htells opening.version [9, 200] 1 200 Int32.lt_irrefl rfl
    refine ⟨opening, rest, value, hopening, hvalue, ?_⟩
    rw [← hopening, hname]
    exact ⟨{ name := "High", value := .long 200 1 }, List.mem_cons_self, rfl, 200, 1, rfl, rfl⟩

end Schema
end SimpleBinary
