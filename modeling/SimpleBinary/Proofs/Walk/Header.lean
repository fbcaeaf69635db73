import SimpleBinary.Proofs.Bytes.Stretch
import SimpleBinary.Proofs.Ir.Compiled
import SimpleBinary.Proofs.Ir.Lookup
import SimpleBinary.Proofs.Walk.Reports
import SimpleBinary.Walk.Header

/-! The header in front of a message. A header of fixed length has a reader, and
its four known members stand apart in it. They are what the reader reads if
each is on the wire and the first of its name in the run of the header. -/
namespace SimpleBinary

namespace DataType
variable {offset : Int} {members : List DataType} {name : String}

/-- A member stands between the members before it and the end of them all. -/
theorem Placed.of_memberAt? {place : Int} {member : DataType} (h : Placed offset members)
    (hat : memberAt? name offset members = some (place, member)) :
    offset ≤ place ∧ IsPlace place ∧ IsPlace member.encodedLength ∧
      place + member.encodedLength ≤ runningEnd offset members := by
  induction members generalizing offset with
  | nil => cases hat
  | cons first rest ih =>
    obtain ⟨hle, hstart, hsize, hrest⟩ := h.cons
    have hend := (hrest.membersLength_le (Int.le_refl _)).1
    have hlast := (hrest.membersLength_le (Int.le_refl _)).2
    unfold IsPlace at hsize
    rw [memberAt?] at hat
    rw [runningEnd, List.foldl_cons]
    split at hat
    · cases hat
      exact ⟨hle, hstart, hsize, Int.le_trans hend hlast⟩
    · obtain ⟨hbehind, hplace, hlength, hinside⟩ := ih hrest hat
      exact ⟨by omega, hplace, hlength, hinside⟩

theorem Placed.apart {a b : String} {placeA placeB : Int} {memberA memberB : DataType}
    (h : Placed offset members) (hne : a ≠ b)
    (ha : memberAt? a offset members = some (placeA, memberA))
    (hb : memberAt? b offset members = some (placeB, memberB)) :
    placeA + memberA.encodedLength ≤ placeB ∨ placeB + memberB.encodedLength ≤ placeA := by
  induction members generalizing offset with
  | nil => cases ha
  | cons first rest ih =>
    obtain ⟨-, -, -, hrest⟩ := h.cons
    rw [memberAt?] at ha hb
    split at ha
    · next hnameA =>
      cases ha
      rw [if_neg (by rwa [hnameA])] at hb
      exact .inl (hrest.of_memberAt? hb).1
    · split at hb
      · cases hb
        exact .inr (hrest.of_memberAt? ha).1
      · exact ih hrest ha hb

theorem mem_of_memberAt? {place : Int} {member : DataType}
    (h : memberAt? name offset members = some (place, member)) : member ∈ members :=
  List.mem_of_find?_eq_some (member?_of_memberAt? h)

/-- An encoded type with at least one element on the wire. -/
def isOnWire : DataType → Bool
  | .encoded info type => info.presence ≠ .constant && 0 < type.length.toInt
  | _ => false

theorem Valid.size_le_encodedLength {info : TypeInfo} {type : EncodedType}
    (h : (DataType.encoded info type).Valid) (hwire : (DataType.encoded info type).isOnWire = true)
    (hfixed : (DataType.encoded info type).isVariable = false) :
    (type.primitive.size : Int) ≤ (DataType.encoded info type).encodedLength := by
  cases h with
  | encoded _ htype =>
    simp only [isOnWire, Bool.and_eq_true, decide_eq_true_eq] at hwire
    have hsize : type.primitive.size * 1 ≤ (type.primitive.size : Int) * type.length.toInt :=
      Int.mul_le_mul_of_nonneg_left hwire.2 (Int.natCast_nonneg _)
    have hfits := Check.fits_iff.mp htype.fits
    rw [isVariable] at hfixed
    rw [encodedLength, if_neg hwire.1, if_neg (by simp [hfixed]), arraySize]
    omega

end DataType

namespace Walk
open Bytes (Agree patch)
open Generate
open DataType (memberAt? leadsTo)

namespace HeaderMember
variable {member other : HeaderMember} {buffer : List UInt8} {index : Nat} {value : Int64}

def write (member : HeaderMember) (buffer : List UInt8) (index : Nat) (value : Int64) :
    List UInt8 :=
  patch buffer (index + member.offset)
    ((Value.long value member.primitive.size).toBytes member.byteOrder)

def HasRoom (buffer : List UInt8) (index : Nat) (member : HeaderMember) : Prop :=
  index + member.offset + member.primitive.size ≤ buffer.length

instance : Decidable (HasRoom buffer index member) := inferInstanceAs (Decidable (_ ≤ _))

def Apart (a b : HeaderMember) : Prop :=
  a.offset + a.primitive.size ≤ b.offset ∨ b.offset + b.primitive.size ≤ a.offset

theorem length_write (h : member.HasRoom buffer index) :
    (member.write buffer index value).length = buffer.length :=
  Bytes.length_patch (by rwa [Value.length_toBytes_long])

theorem read_write (hroom : member.HasRoom buffer index) (h : Value.Holds member.primitive value) :
    member.read (member.write buffer index value) index = .ok value := by
  have hfront : (buffer.take (index + member.offset)).length = index + member.offset := by
    unfold HasRoom at hroom
    rw [List.length_take]
    omega
  have hvalue := Value.read?_long (buffer.take (index + member.offset)) (buffer.drop
    (index + member.offset + ((Value.long value member.primitive.size).toBytes
      member.byteOrder).length)) member.byteOrder h
  rw [hfront] at hvalue
  rw [read, readInteger, if_neg (by simp [h.not_floating]), write, patch, hvalue]
  rfl

theorem read_agree {a b : List UInt8}
    (h : Agree a b (index + member.offset) member.primitive.size) :
    member.read a index = member.read b index := by
  simp only [read, readInteger, Value.read?, h.length, h.stretch]

/-- A member that stands apart is read as before. -/
theorem read_write_apart (hroom : other.HasRoom buffer index) (h : member.Apart other) :
    member.read (other.write buffer index value) index = member.read buffer index := by
  refine read_agree (Bytes.agree_patch ?_ ?_)
  · rwa [Value.length_toBytes_long]
  · unfold Apart at h
    rw [Value.length_toBytes_long]
    omega

def writeAll (buffer : List UInt8) (index : Nat) (pairs : List (HeaderMember × Int64)) :
    List UInt8 :=
  pairs.foldl (fun buffer pair => pair.1.write buffer index pair.2) buffer

theorem read_writeAll_apart {pairs : List (HeaderMember × Int64)}
    (hroom : ∀ pair ∈ pairs, pair.1.HasRoom buffer index)
    (h : ∀ pair ∈ pairs, member.Apart pair.1) :
    member.read (writeAll buffer index pairs) index = member.read buffer index := by
  induction pairs generalizing buffer with
  | nil => rfl
  | cons pair rest ih =>
    simp only [List.mem_cons, forall_eq_or_imp] at hroom h
    rw [writeAll, List.foldl_cons, ← writeAll, ih, read_write_apart hroom.1 h.1]
    · intro other hother
      unfold HasRoom
      rw [length_write hroom.1]
      exact hroom.2 other hother
    · exact h.2

/-- Whatever is written in members that stand apart is read from each of them. -/
theorem read_writeAll {pairs : List (HeaderMember × Int64)}
    (hapart : pairs.Pairwise fun a b => a.1.Apart b.1)
    (hroom : ∀ pair ∈ pairs, pair.1.HasRoom buffer index)
    (hholds : ∀ pair ∈ pairs, Value.Holds pair.1.primitive pair.2) :
    ∀ pair ∈ pairs, pair.1.read (writeAll buffer index pairs) index = .ok pair.2 := by
  induction pairs generalizing buffer with
  | nil => simp
  | cons pair rest ih =>
    simp only [List.mem_cons, forall_eq_or_imp] at hroom hholds ⊢
    obtain ⟨hfirst, hrest⟩ := List.pairwise_cons.mp hapart
    have hkept : ∀ other ∈ rest, other.1.HasRoom (pair.1.write buffer index pair.2) index := by
      intro other hother
      unfold HasRoom
      rw [length_write hroom.1]
      exact hroom.2 other hother
    rw [writeAll, List.foldl_cons, ← writeAll]
    refine ⟨?_, ih hrest hkept hholds.2⟩
    rw [read_writeAll_apart hkept hfirst, read_write hroom.1 hholds.1]

end HeaderMember

structure HeaderValues where
  blockLength : Int64
  templateId : Int64
  schemaId : Int64
  version : Int64
  deriving DecidableEq

namespace HeaderReader

def pairs (reader : HeaderReader) (values : HeaderValues) : List (HeaderMember × Int64) :=
  [(reader.blockLength, values.blockLength), (reader.templateId, values.templateId),
    (reader.schemaId, values.schemaId), (reader.version, values.version)]

def write (reader : HeaderReader) (buffer : List UInt8) (index : Nat) (values : HeaderValues) :
    List UInt8 :=
  HeaderMember.writeAll buffer index (reader.pairs values)

def read (reader : HeaderReader) (buffer : List UInt8) (index : Nat) :
    Except WalkFault HeaderValues := do
  return {
    blockLength := ← reader.blockLength.read buffer index
    templateId := ← reader.templateId.read buffer index
    schemaId := ← reader.schemaId.read buffer index
    version := ← reader.version.read buffer index }

theorem read_write {reader : HeaderReader} {values : HeaderValues} {buffer : List UInt8}
    {index : Nat} (hapart : (reader.pairs values).Pairwise fun a b => a.1.Apart b.1)
    (hroom : ∀ pair ∈ reader.pairs values, pair.1.HasRoom buffer index)
    (hholds : ∀ pair ∈ reader.pairs values, Value.Holds pair.1.primitive pair.2) :
    reader.read (reader.write buffer index values) index = .ok values := by
  have hread := HeaderMember.read_writeAll hapart hroom hholds
  rw [← write] at hread
  simp only [pairs, List.mem_cons, List.not_mem_nil, or_false, forall_eq_or_imp, forall_eq] at hread
  obtain ⟨hlength, htemplate, hschema, hversion⟩ := hread
  simp only [read, hlength, htemplate, hschema, hversion]
  rfl

def names : List String := ["blockLength", "templateId", "schemaId", "version"]

def declaredMember? (order : ByteOrder) (members : List DataType) (name : String) :
    Option HeaderMember :=
  (memberAt? name 0 members).bind fun found => found.2.encoded?.map fun type =>
    { offset := found.1.toNat, primitive := type.primitive, byteOrder := order }

def declared? (order : ByteOrder) (members : List DataType) : Option HeaderReader := do
  return {
    length := (DataType.membersLength 0 members).toNat
    blockLength := ← declaredMember? order members "blockLength"
    templateId := ← declaredMember? order members "templateId"
    schemaId := ← declaredMember? order members "schemaId"
    version := ← declaredMember? order members "version" }

/-- Whether a member of the header is on the wire and the first of its name in
the run. -/
def isPlainlyRead (members : List DataType) (name : String) : Bool :=
  leadsTo name members && (memberAt? name 0 members).any fun found => found.2.isOnWire

end HeaderReader

theorem HeaderReader.ofStructure_eq_ok {header : HeaderStructure} {reader : HeaderReader} :
    HeaderReader.ofStructure header = .ok reader ↔
      toIndex ((header.tokens.head?.map (·.size)).getD 0) "header" = .ok reader.length ∧
      HeaderMember.ofStructure header "blockLength" = .ok reader.blockLength ∧
      HeaderMember.ofStructure header "templateId" = .ok reader.templateId ∧
      HeaderMember.ofStructure header "schemaId" = .ok reader.schemaId ∧
      HeaderMember.ofStructure header "version" = .ok reader.version := by
  unfold HeaderReader.ofStructure
  dsimp only
  cases toIndex ((header.tokens.head?.map (·.size)).getD 0) "header" with
  | error fault =>
    constructor
    · intro h
      cases h
    · rintro ⟨h, -⟩
      cases h
  | ok length =>
    dsimp only
    rw [pure_bind]
    constructor
    · intro h
      obtain ⟨blockLength, hblock, h⟩ := bind_eq_ok.mp h
      obtain ⟨templateId, htemplate, h⟩ := bind_eq_ok.mp h
      obtain ⟨schemaId, hschema, h⟩ := bind_eq_ok.mp h
      obtain ⟨version, hversion, h⟩ := bind_eq_ok.mp h
      cases h
      exact ⟨rfl, hblock, htemplate, hschema, hversion⟩
    · rintro ⟨hlength, hblock, htemplate, hschema, hversion⟩
      cases hlength
      rw [hblock, htemplate, hschema, hversion]
      rfl

theorem HeaderMember.ofStructure_of_found {header : HeaderStructure} {name : String}
    {token : Token} {primitive : Primitive} {offset : Nat}
    (hfound : header.tokens.find? (Token.encodes name) = some token)
    (hprimitive : token.encoding.primitive = some primitive)
    (hoffset : toIndex token.offset name = .ok offset) :
    HeaderMember.ofStructure header name =
      .ok { offset, primitive, byteOrder := token.encoding.byteOrder } := by
  have hmember : header.member? name = some token := hfound
  simp only [HeaderMember.ofStructure, hmember, hprimitive, hoffset]
  rfl

end Walk

namespace Schema
open Generate Walk
open DataType (memberAt? leadsTo anyVariable)

theorem IsHeader.measures {members : List DataType} (h : IsHeader members) :
    ∀ name ∈ HeaderReader.names, DataType.Measures members name := by
  have hword : ∀ name ∈ ["templateId", "schemaId", "version"], DataType.Measures members name := by
    intro name hname
    obtain ⟨type, htype, hprimitive⟩ := h.2 name hname
    exact ⟨type, htype, by rw [hprimitive]; rfl⟩
  intro name hname
  rcases List.mem_cons.mp hname with rfl | hname
  · exact h.1
  · exact hword name hname

section
variable {order : ByteOrder} {info : TypeInfo} {members : List DataType}

def headerRun (order : ByteOrder) (info : TypeInfo) (members : List DataType) : List Token :=
  Token.recount (typeTokens order 0 none (.composite info members))

/-- In the run of a header something is found under each name, maybe not the
member. -/
theorem IsHeader.exists_token (h : IsHeader members) (order : ByteOrder) (info : TypeInfo)
    {name : String} (hname : name ∈ HeaderReader.names) :
    ∃ token primitive, (headerRun order info members).find? (Token.encodes name) = some token ∧
      token.encoding.primitive = some primitive := by
  obtain ⟨type, htype, -⟩ := h.measures name hname
  obtain ⟨token, htoken⟩ := exists_found order (Option.isSome_of_eq_some htype) 0 none info
  have hsignal : token.signal = .encoding := by
    have hfound := List.find?_some htoken
    simp only [Bool.and_eq_true, decide_eq_true_eq] at hfound
    exact hfound.1
  have hprimitives : ∀ token ∈ headerRun order info members,
      token.signal = .encoding → token.encoding.primitive.isSome = true :=
    (Token.forall_recount (fun _ => Iff.rfl) (nested_typeTokens order _ 0 none)).mpr
      (primitive_typeTokens order _ 0 none)
  obtain ⟨primitive, hprimitive⟩ := Option.isSome_iff_exists.mp
    (hprimitives token (List.mem_of_find?_eq_some htoken) hsignal)
  exact ⟨token, primitive, htoken, hprimitive⟩

theorem IsHeader.exists_ofTokens (h : IsHeader members) (order : ByteOrder) (info : TypeInfo) :
    ∃ header, HeaderStructure.ofTokens (headerRun order info members) = .ok header := by
  have hprimitive : ∀ name ∈ HeaderReader.names, ∃ primitive,
      HeaderStructure.primitiveOf (headerRun order info members) name = .ok primitive := by
    intro name hname
    obtain ⟨token, primitive, hfound, hprimitive⟩ := h.exists_token order info hname
    have hmember : HeaderStructure.memberOf? (headerRun order info members) name = some token :=
      hfound
    refine ⟨primitive, ?_⟩
    simp only [HeaderStructure.primitiveOf, hmember, Option.bind_some, hprimitive]
  obtain ⟨blockLength, hblock⟩ := hprimitive "blockLength" (by decide)
  obtain ⟨templateId, htemplate⟩ := hprimitive "templateId" (by decide)
  obtain ⟨schemaId, hschema⟩ := hprimitive "schemaId" (by decide)
  obtain ⟨version, hversion⟩ := hprimitive "version" (by decide)
  exact ⟨⟨_, blockLength, templateId, schemaId, version⟩,
    Ir.ofTokens_eq_ok.mpr ⟨rfl, hblock, htemplate, hschema, hversion⟩⟩

theorem size_headerRun (order : ByteOrder) (info : TypeInfo) (members : List DataType) :
    ((headerRun order info members).head?.map (·.size)).getD 0 =
      Int32.ofInt (DataType.membersLength 0 members) := by
  rw [headerRun, typeTokens, bracketed,
    Token.recount_bracketed rfl (nested_memberTokens order members 0), DataType.encodedLength]
  rfl

end

/-- An accepted schema is compiled if it fits, and its header is the run of a
composite that has the four members. -/
theorem Valid.compiles {schema : Schema} (hvalid : schema.Valid) (namespaceName : Option String) :
    ∃ info members, schema.types.get? schema.headerType = some (.composite info members) ∧
      IsHeader members ∧ schema.Compiles namespaceName fun ir =>
        ir.header.tokens = headerRun schema.byteOrder info members := by
  obtain ⟨members, hheader, hmembers⟩ := hvalid.header
  obtain ⟨type, htype, hcomposite⟩ := Option.bind_eq_some_iff.mp hheader
  obtain ⟨info, rfl⟩ := DataType.exists_of_composite? hcomposite
  obtain ⟨header, hstructure⟩ := hmembers.exists_ofTokens schema.byteOrder info
  obtain ⟨start, hcreate⟩ : ∃ start, Ir.create schema.packageName namespaceName schema.id
      schema.version schema.semanticVersion schema.byteOrder
      (headerRun schema.byteOrder info members) = .ok start := by
    unfold Ir.create
    rw [hstructure]
    exact ⟨_, rfl⟩
  have hcompile : schema.compile namespaceName =
      if schema.fits then .ok (start.addAll schema.runs) else .error .tooLarge := by
    unfold compile Schema.fits
    rw [htype, Option.all_some]
    dsimp only
    rw [pure_bind, headerTokens_eq, ← headerRun, hcreate, runs, Ir.addAll, List.foldl_map]
    cases (DataType.composite info members).fits with
    | false => rfl
    | true => cases schema.messages.values.all (Field.allFit ·.fields) <;> rfl
  refine ⟨info, members, htype, hmembers, hvalid.fits, fun hfits => ?_, fun hfits => ?_⟩
  · rw [hcompile, hfits]
    rfl
  · rw [hcompile, if_pos hfits]
    exact ⟨_, rfl, (Record.header_addAll schema.runs hcreate).2⟩

section
variable {order : ByteOrder} {info : TypeInfo} {members : List DataType} {header : HeaderStructure}
  (htokens : header.tokens = headerRun order info members)
include htokens

/-- A header with a free end has no reader. -/
theorem fixed_of_ofStructure {reader : HeaderReader}
    (h : HeaderReader.ofStructure header = .ok reader) : anyVariable members = false := by
  have hsize := (HeaderReader.ofStructure_eq_ok.mp h).1
  rw [htokens, size_headerRun] at hsize
  cases hvariable : anyVariable members with
  | false => rfl
  | true =>
    rw [DataType.membersLength_of_anyVariable hvariable] at hsize
    cases hsize

theorem length_of_ofStructure (hplaced : DataType.Placed 0 members) {reader : HeaderReader}
    (h : HeaderReader.ofStructure header = .ok reader) :
    reader.length = (DataType.membersLength 0 members).toNat := by
  have hsize := (HeaderReader.ofStructure_eq_ok.mp h).1
  have hplace := DataType.isPlace_membersLength members hplaced.valid hplaced.fixed 0 0
    hplaced.spaced ⟨hplaced.isPlace, hplaced.isPlace⟩ (Int.le_refl 0)
  rw [htokens, size_headerRun, toIndex_ofInt hplace] at hsize
  exact (Except.ok.inj hsize).symm

/-- Whatever is found in a header of fixed length can be read. -/
theorem exists_ofStructure (hheader : IsHeader members) (hplaced : DataType.Placed 0 members) :
    ∃ reader, HeaderReader.ofStructure header = .ok reader := by
  have hplace := DataType.isPlace_membersLength members hplaced.valid hplaced.fixed 0 0
    hplaced.spaced ⟨hplaced.isPlace, hplaced.isPlace⟩ (Int.le_refl 0)
  have hoffsets : ∀ token ∈ headerRun order info members, 0 ≤ token.offset.toInt := by
    refine (Token.forall_recount (fun _ => Iff.rfl) (nested_typeTokens order _ 0 none)).mpr ?_
    rw [typeTokens, forall_bracketed]
    exact ⟨Int.le_refl 0, offset_memberTokens order members 0 hplaced, Int.le_refl 0⟩
  have hmember : ∀ name ∈ HeaderReader.names, ∃ member,
      HeaderMember.ofStructure header name = .ok member := by
    intro name hname
    obtain ⟨token, primitive, hfound, hprimitive⟩ := hheader.exists_token order info hname
    have hoffset := hoffsets token (List.mem_of_find?_eq_some hfound)
    have hindex : toIndex token.offset name = .ok token.offset.toInt.toNat := by
      rw [toIndex, if_neg (by omega)]
    rw [← htokens] at hfound
    exact ⟨_, HeaderMember.ofStructure_of_found hfound hprimitive hindex⟩
  obtain ⟨blockLength, hblock⟩ := hmember "blockLength" (by decide)
  obtain ⟨templateId, htemplate⟩ := hmember "templateId" (by decide)
  obtain ⟨schemaId, hschema⟩ := hmember "schemaId" (by decide)
  obtain ⟨version, hversion⟩ := hmember "version" (by decide)
  refine ⟨⟨(DataType.membersLength 0 members).toNat, blockLength, templateId, schemaId, version⟩,
    HeaderReader.ofStructure_eq_ok.mpr ⟨?_, hblock, htemplate, hschema, hversion⟩⟩
  rw [htokens, size_headerRun]
  exact toIndex_ofInt hplace "header"

/-- A member that leads in the run is read where it is declared. -/
theorem ofStructure_leading (hheader : IsHeader members) (hplaced : DataType.Placed 0 members)
    {name : String} (hname : name ∈ HeaderReader.names) (hlead : leadsTo name members = true)
    {member : HeaderMember} (h : HeaderReader.declaredMember? order members name = some member) :
    HeaderMember.ofStructure header name = .ok member := by
  obtain ⟨type, htype, -⟩ := hheader.measures name hname
  obtain ⟨place, memberInfo, token, hat, hfound, hoffset, hprimitive, horder⟩ :=
    exists_leading order hlead htype 0 none info
  have hplace := (hplaced.of_memberAt? hat).2.1
  have hstructure : header.tokens.find? (Token.encodes name) = some token := htokens ▸ hfound
  have hread := HeaderMember.ofStructure_of_found hstructure hprimitive
    (by rw [hoffset, toIndex_ofInt hplace])
  rw [hread, horder]
  rw [HeaderReader.declaredMember?, hat] at h
  exact congrArg Except.ok (Option.some.inj h)

end

section
variable {order : ByteOrder} {members : List DataType} (hplaced : DataType.Placed 0 members)
include hplaced

theorem declaredMember?_apart {a b : String} {first second : HeaderMember} (hne : a ≠ b)
    (ha : HeaderReader.declaredMember? order members a = some first)
    (hb : HeaderReader.declaredMember? order members b = some second)
    (hwireA : HeaderReader.isPlainlyRead members a = true)
    (hwireB : HeaderReader.isPlainlyRead members b = true) : first.Apart second := by
  have hroom : ∀ {name member}, HeaderReader.declaredMember? order members name = some member →
      HeaderReader.isPlainlyRead members name = true → ∃ place type,
        memberAt? name 0 members = some (place, type) ∧ member.offset = place.toNat ∧
        IsPlace place ∧ (member.primitive.size : Int) ≤ type.encodedLength := by
    intro name member hmember hread
    obtain ⟨⟨place, type⟩, hat, hencoded⟩ := Option.bind_eq_some_iff.mp hmember
    obtain ⟨encoded, hsome, rfl⟩ := Option.map_eq_some_iff.mp hencoded
    rw [HeaderReader.isPlainlyRead, hat, Option.any_some, Bool.and_eq_true] at hread
    obtain ⟨typeInfo, rfl⟩ := DataType.exists_of_encoded? hsome
    have hmem := DataType.mem_of_memberAt? hat
    have hfixed := hplaced.fixed
    rw [DataType.anyVariable_eq_any, List.any_eq_false] at hfixed
    exact ⟨place, _, hat, rfl, (hplaced.of_memberAt? hat).2.1,
      (hplaced.valid _ hmem).size_le_encodedLength hread.2 (by simpa using hfixed _ hmem)⟩
  obtain ⟨placeA, typeA, hatA, hoffsetA, hplaceA, hsizeA⟩ := hroom ha hwireA
  obtain ⟨placeB, typeB, hatB, hoffsetB, hplaceB, hsizeB⟩ := hroom hb hwireB
  have hapart := hplaced.apart hne hatA hatB
  unfold IsPlace at hplaceA hplaceB
  unfold HeaderMember.Apart
  rw [hoffsetA, hoffsetB]
  omega

end

def MembersApart (members : List DataType) (a b : String) : Prop :=
  ∀ placeA memberA placeB memberB, memberAt? a 0 members = some (placeA, memberA) →
    memberAt? b 0 members = some (placeB, memberB) →
    placeA + memberA.encodedLength ≤ placeB ∨ placeB + memberB.encodedLength ≤ placeA

def MemberWithin (members : List DataType) (length : Nat) (name : String) : Prop :=
  ∀ place member, memberAt? name 0 members = some (place, member) →
    0 ≤ place ∧ place + member.encodedLength ≤ length

theorem exists_declared? {order : ByteOrder} {members : List DataType} (h : IsHeader members) :
    ∃ declared, HeaderReader.declared? order members = some declared ∧
      declared.length = (DataType.membersLength 0 members).toNat ∧
      HeaderReader.declaredMember? order members "blockLength" = some declared.blockLength ∧
      HeaderReader.declaredMember? order members "templateId" = some declared.templateId ∧
      HeaderReader.declaredMember? order members "schemaId" = some declared.schemaId ∧
      HeaderReader.declaredMember? order members "version" = some declared.version := by
  have hmember : ∀ name ∈ HeaderReader.names, ∃ member,
      HeaderReader.declaredMember? order members name = some member := by
    intro name hname
    obtain ⟨type, htype, -⟩ := h.measures name hname
    obtain ⟨place, info, hat, -⟩ := DataType.exists_memberAt? htype 0
    rw [HeaderReader.declaredMember?, hat]
    exact ⟨_, rfl⟩
  obtain ⟨blockLength, hblock⟩ := hmember "blockLength" (by decide)
  obtain ⟨templateId, htemplate⟩ := hmember "templateId" (by decide)
  obtain ⟨schemaId, hschema⟩ := hmember "schemaId" (by decide)
  obtain ⟨version, hversion⟩ := hmember "version" (by decide)
  refine ⟨⟨_, blockLength, templateId, schemaId, version⟩, ?_, rfl, hblock, htemplate, hschema,
    hversion⟩
  unfold HeaderReader.declared?
  rw [hblock, htemplate, hschema, hversion]
  rfl

/-- A header whose members are read plainly gives back what is written in it. -/
theorem read_declared {order : ByteOrder} {info : TypeInfo} {members : List DataType}
    {header : HeaderStructure} {declared : HeaderReader}
    (htokens : header.tokens = headerRun order info members) (hheader : IsHeader members)
    (hplaced : DataType.Placed 0 members)
    (hdeclared : HeaderReader.declared? order members = some declared)
    (hread : ∀ name ∈ HeaderReader.names, HeaderReader.isPlainlyRead members name = true) :
    HeaderReader.ofStructure header = .ok declared ∧
      ∀ (buffer : List UInt8) (index : Nat) (values : HeaderValues),
        (∀ pair ∈ declared.pairs values, pair.1.HasRoom buffer index) →
        (∀ pair ∈ declared.pairs values, Value.Holds pair.1.primitive pair.2) →
        declared.read (declared.write buffer index values) index = .ok values := by
  obtain ⟨_, hsame, hlength, hblock, htemplate, hschema, hversion⟩ := exists_declared? hheader
  cases hdeclared.symm.trans hsame
  have hlead : ∀ name ∈ HeaderReader.names, leadsTo name members = true := fun name hname =>
    (Bool.and_eq_true_iff.mp (hread name hname)).1
  constructor
  · obtain ⟨reader, hreader⟩ := exists_ofStructure htokens hheader hplaced
    rw [HeaderReader.ofStructure_eq_ok, hlength, ← length_of_ofStructure htokens hplaced hreader]
    refine ⟨(HeaderReader.ofStructure_eq_ok.mp hreader).1, ?_, ?_, ?_, ?_⟩
    · exact ofStructure_leading htokens hheader hplaced (by decide) (hlead _ (by decide)) hblock
    · exact ofStructure_leading htokens hheader hplaced (by decide) (hlead _ (by decide)) htemplate
    · exact ofStructure_leading htokens hheader hplaced (by decide) (hlead _ (by decide)) hschema
    · exact ofStructure_leading htokens hheader hplaced (by decide) (hlead _ (by decide)) hversion
  · intro buffer index values hroom hholds
    refine HeaderReader.read_write ?_ hroom hholds
    have hapart := fun {a b first second} (hne : a ≠ b) ha hb hA hB =>
      @declaredMember?_apart order members hplaced a b first second hne ha hb
        (hread a hA) (hread b hB)
    simp only [HeaderReader.pairs, List.pairwise_cons, List.mem_cons, List.not_mem_nil, or_false,
      forall_eq_or_imp, forall_eq, List.Pairwise.nil, and_true, false_implies, implies_true]
    exact ⟨⟨hapart (by decide) hblock htemplate (by decide) (by decide),
        hapart (by decide) hblock hschema (by decide) (by decide),
        hapart (by decide) hblock hversion (by decide) (by decide)⟩,
      ⟨hapart (by decide) htemplate hschema (by decide) (by decide),
        hapart (by decide) htemplate hversion (by decide) (by decide)⟩,
      hapart (by decide) hschema hversion (by decide) (by decide)⟩

/-- The header of an accepted schema. It has a reader just when its length is
fixed; then the four members stand apart in it, and inside it if an offset is
declared behind every constant that takes up bytes. The reader is the declared
one, and reads what is written in the members, if each of them is read
plainly, whatever other members the header has. -/
theorem header_of_parse {document : String} {policy : Policy} {schema : Schema}
    (hparse : parse document policy = .ok schema) (namespaceName : Option String) :
    ∃ info members, schema.types.get? schema.headerType = some (.composite info members) ∧
      schema.Compiles namespaceName fun ir =>
      ((∃ reader, HeaderReader.ofStructure ir.header = .ok reader) ↔
        anyVariable members = false) ∧
      (anyVariable members = false →
        ∃ declared, HeaderReader.declared? schema.byteOrder members = some declared ∧
          (∀ reader, HeaderReader.ofStructure ir.header = .ok reader →
            reader.length = declared.length) ∧
          HeaderReader.names.Pairwise (MembersApart members) ∧
          (DataType.flush members = true →
            ∀ name ∈ HeaderReader.names, MemberWithin members declared.length name) ∧
          ((∀ name ∈ HeaderReader.names, HeaderReader.isPlainlyRead members name = true) →
            HeaderReader.ofStructure ir.header = .ok declared ∧
            ∀ (buffer : List UInt8) (index : Nat) (values : HeaderValues),
              (∀ pair ∈ declared.pairs values, pair.1.HasRoom buffer index) →
              (∀ pair ∈ declared.pairs values, Value.Holds pair.1.primitive pair.2) →
              declared.read (declared.write buffer index values) index = .ok values)) := by
  have hvalid := valid_of_parse hparse
  obtain ⟨info, members, htype, hheader, hcompiles⟩ := hvalid.compiles namespaceName
  have hplaced : anyVariable members = false → DataType.Placed 0 members := by
    intro hfixed
    cases (hvalid.types.of_get? htype).1 with
    | composite _ hmembers _ hspaced => exact ⟨hmembers, hfixed, hspaced, by decide⟩
  refine ⟨info, members, htype, hcompiles.imp fun ir _ htokens => ⟨⟨?_, ?_⟩, ?_⟩⟩
  · rintro ⟨reader, hreader⟩
    exact fixed_of_ofStructure htokens hreader
  · exact fun hfixed => exists_ofStructure htokens hheader (hplaced hfixed)
  · intro hfixed
    obtain ⟨declared, hdeclared, hlength, -⟩ := exists_declared? hheader
    have hnonneg := ((hplaced hfixed).membersLength_le (Int.le_refl 0)).1
    refine ⟨declared, hdeclared, fun reader hreader => ?_, ?_, fun hflush name _ => ?_, ?_⟩
    · rw [hlength]
      exact length_of_ofStructure htokens (hplaced hfixed) hreader
    · have hdistinct : HeaderReader.names.Pairwise (· ≠ ·) := by decide
      exact hdistinct.imp fun hne _ _ _ _ ha hb => (hplaced hfixed).apart hne ha hb
    · intro place member hat
      obtain ⟨hlow, -, -, hend⟩ := (hplaced hfixed).of_memberAt? hat
      have hsame := ((hplaced hfixed).runningEnd_eq_iff (Int.le_refl 0)).mpr ⟨.inl rfl, hflush⟩
      exact ⟨hlow, by omega⟩
    · exact fun hread => read_declared htokens hheader (hplaced hfixed) hdeclared hread

structure HeaderView where
  isFixed : Bool
  isFlush : Bool
  isPlain : Bool
  declared : Option HeaderReader
  reader : Option HeaderReader
  deriving DecidableEq

def headerView (schema : Schema) : Option HeaderView :=
  schema.header?.map fun members =>
    { isFixed := !anyVariable members
      isFlush := DataType.flush members
      isPlain := HeaderReader.names.all (HeaderReader.isPlainlyRead members)
      declared := HeaderReader.declared? schema.byteOrder members
      reader := (schema.compile none).toOption.bind fun ir =>
        (HeaderReader.ofStructure ir.header).toOption }

/-- A header with an enum, a gap, an array, and a second version inside a
composite behind the first. -/
def framed : String :=
  "<messageSchema package='p' id='7' byteOrder='bigEndian'><types><composite name='messageHeader'>
    <enum name='kind' encodingType='uint8'><validValue name='A'>1</validValue></enum>
    <type name='version' primitiveType='uint16'/><composite name='inner'>
    <type name='version' primitiveType='uint8'/></composite>
    <type name='blockLength' primitiveType='uint32'/>
    <type name='schemaId' primitiveType='uint16' offset='10'/>
    <type name='templateId' primitiveType='uint16' length='2'/></composite></types></messageSchema>"

def framedReader : HeaderReader where
  length := 16
  blockLength := ⟨4, .uint32, .big⟩
  templateId := ⟨12, .uint16, .big⟩
  schemaId := ⟨10, .uint16, .big⟩
  version := ⟨1, .uint16, .big⟩

theorem headerView_framed : (parse framed {}).toOption.map headerView =
    some (some ⟨true, true, true, some framedReader, some framedReader⟩) := by
  rw [framed, parse_eq String.toList_ofList]
  decide +kernel

theorem header_framed : ∃ schema ir members, parse framed {} = .ok schema ∧
    schema.compile none = .ok ir ∧ schema.header? = some members ∧
    HeaderReader.names.Pairwise (MembersApart members) ∧
    (∀ name ∈ HeaderReader.names, MemberWithin members 16 name) ∧
    HeaderReader.ofStructure ir.header = .ok framedReader ∧
    ∀ (buffer : List UInt8) (index : Nat), index + 16 ≤ buffer.length →
      framedReader.read (framedReader.write buffer index ⟨70000, 2, 65535, 4⟩) index =
        .ok ⟨70000, 2, 65535, 4⟩ := by
  obtain ⟨schema, hparse, hview⟩ := exists_of_parse headerView_framed
  obtain ⟨info, members, htype, hcompiles⟩ := header_of_parse hparse none
  have hheader : schema.header? = some members := by
    rw [header?, htype]
    rfl
  rw [headerView, hheader, Option.map_some, Option.some.injEq, HeaderView.mk.injEq] at hview
  obtain ⟨hvariable, hflush, hplain, hdeclared, hreader⟩ := hview
  obtain ⟨ir, hcompile, -⟩ := Option.bind_eq_some_iff.mp hreader
  have hcompile := eq_ok_of_toOption hcompile
  obtain ⟨declared, hsame, -, hapart, hwithin, hread⟩ :=
    (hcompiles.of_compile hcompile).2 (by simpa using hvariable)
  cases hdeclared.symm.trans hsame
  obtain ⟨hreader, hvalues⟩ := hread (List.all_eq_true.mp hplain)
  refine ⟨schema, ir, members, hparse, hcompile, hheader, hapart, hwithin hflush, hreader, ?_⟩
  intro buffer index hroom
  refine hvalues buffer index _ ?_ (by decide)
  simp only [HeaderReader.pairs, framedReader, List.mem_cons, List.not_mem_nil, or_false,
    forall_eq_or_imp, forall_eq, HeaderMember.HasRoom, Primitive.size]
  omega

/-- A header with a second version inside a composite in front of the first. -/
def shadowed : String :=
  "<messageSchema package='p' id='7' version='3'><types><composite name='messageHeader'>
    <composite name='inner'><type name='version' primitiveType='uint8'/></composite>
    <type name='blockLength' primitiveType='uint16'/>
    <type name='templateId' primitiveType='uint16'/>
    <type name='schemaId' primitiveType='uint16'/><type name='version' primitiveType='uint16'/>
    </composite></types><message name='M' id='1'><field name='x' id='2' type='uint8'/></message>
    </messageSchema>"

def shadowedReader : HeaderReader where
  length := 9
  blockLength := ⟨1, .uint16, .little⟩
  templateId := ⟨3, .uint16, .little⟩
  schemaId := ⟨5, .uint16, .little⟩
  version := ⟨7, .uint16, .little⟩

theorem headerView_shadowed : (parse shadowed {}).toOption.map headerView =
    some (some ⟨true, true, false, some shadowedReader,
      some { shadowedReader with version := ⟨0, .uint8, .little⟩ }⟩) := by
  rw [shadowed, parse_eq String.toList_ofList]
  decide +kernel

theorem header_shadowed : ∃ schema ir members reader, parse shadowed {} = .ok schema ∧
    schema.compile none = .ok ir ∧ schema.header? = some members ∧
    HeaderReader.declared? schema.byteOrder members = some shadowedReader ∧
    HeaderReader.ofStructure ir.header = .ok reader ∧
    (reader.read (shadowedReader.write [7, 0, 0, 0, 0, 0, 0, 0, 0] 0 ⟨1, 1, 7, 3⟩) 0).toOption =
      some ⟨1, 1, 7, 7⟩ := by
  obtain ⟨schema, hparse, hview⟩ := exists_of_parse headerView_shadowed
  obtain ⟨members, hheader, hview⟩ := Option.map_eq_some_iff.mp hview
  rw [HeaderView.mk.injEq] at hview
  obtain ⟨-, -, -, hdeclared, hreader⟩ := hview
  obtain ⟨ir, hcompile, hreader⟩ := Option.bind_eq_some_iff.mp hreader
  refine ⟨schema, ir, members, _, hparse, eq_ok_of_toOption hcompile, hheader, hdeclared,
    eq_ok_of_toOption hreader, ?_⟩
  decide +kernel

end Schema
end SimpleBinary
