import SimpleBinary.Value

/-! The types that a schema declares, and the bytes that they take up. -/
namespace SimpleBinary

/-- The length of anything whose size is only known on the wire. -/
def variableLength : Int := -1

structure TypeInfo where
  name : String
  description : Option String := none
  presence : Presence := .required
  semanticType : Option String := none
  sinceVersion : Int32 := 0
  deprecated : Int32 := 0
  offset : Option Int32 := none
  deriving DecidableEq

structure EncodedType where
  primitive : Primitive
  length : Int32 := 1
  isVariable : Bool := false
  constValue : Option Value := none
  minValue : Option Value := none
  maxValue : Option Value := none
  nullValue : Option Value := none
  characterEncoding : Option String := none
  valueRef : Option String := none
  deriving DecidableEq

/-- A valid value of an enum, or a choice of a set with its bit position. -/
structure NamedValue where
  name : String
  description : Option String := none
  value : Value
  sinceVersion : Int32 := 0
  deprecated : Int32 := 0
  deriving DecidableEq

structure EnumType where
  encoding : Primitive
  nullValue : Option Value := none
  values : List NamedValue := []
  deriving DecidableEq

structure SetType where
  encoding : Primitive
  choices : List NamedValue := []
  deriving DecidableEq

inductive DataType where
  | encoded (info : TypeInfo) (type : EncodedType)
  | composite (info : TypeInfo) (members : List DataType)
  | enum (info : TypeInfo) (type : EnumType)
  | set (info : TypeInfo) (type : SetType)

namespace DataType

def info : DataType → TypeInfo
  | .encoded info _ | .composite info _ | .enum info _ | .set info _ => info

def withInfo (info : TypeInfo) : DataType → DataType
  | .encoded _ type => .encoded info type
  | .composite _ members => .composite info members
  | .enum _ type => .enum info type
  | .set _ type => .set info type

@[simp] theorem info_withInfo (info : TypeInfo) (type : DataType) :
    (type.withInfo info).info = info := by
  cases type <;> rfl

def name (type : DataType) : String := type.info.name

def isConstant (type : DataType) : Bool := type.info.presence = .constant

def ofPrimitive (primitive : Primitive) : DataType :=
  .encoded { name := primitive.name } { primitive }

def isBuiltIn (primitive : Primitive) : DataType → Bool
  | .encoded info type => info = { name := primitive.name } ∧ type = { primitive }
  | _ => false

def encoded? : DataType → Option EncodedType
  | .encoded _ type => some type
  | _ => none

def composite? : DataType → Option (List DataType)
  | .composite _ members => some members
  | _ => none

def enum? : DataType → Option EnumType
  | .enum _ type => some type
  | _ => none

def set? : DataType → Option SetType
  | .set _ type => some type
  | _ => none

mutual

def isVariable : DataType → Bool
  | .encoded _ type => type.isVariable
  | .composite _ members => anyVariable members
  | .enum .. => false
  | .set .. => false

def anyVariable : List DataType → Bool
  | [] => false
  | member :: rest => member.isVariable || anyVariable rest

end

/-- An array is never longer than a word can say. -/
def arraySize (type : EncodedType) : Int :=
  max (-2147483648) (min 2147483647 (type.primitive.size * type.length.toInt))

def start (offset : Int) (member : DataType) : Int :=
  match member.info.offset with
  | some declared => declared.toInt
  | none => offset

mutual

/-- Bytes in a block. Constants of an encoded type take none. -/
def encodedLength : DataType → Int
  | .encoded info type =>
    if info.presence = .constant then 0
    else if type.isVariable then variableLength
    else arraySize type
  | .composite _ members => membersLength 0 members
  | .enum _ type => type.encoding.size
  | .set _ type => type.encoding.size

/-- The end of the last member, where a declared offset moves a member and a
constant of any kind takes no room. -/
def membersLength (length : Int) : List DataType → Int
  | [] => length
  | member :: rest =>
    if member.isVariable then variableLength
    else
      let start := member.start length
      membersLength (if member.isConstant then start else start + member.encodedLength) rest

end

def member? (members : List DataType) (name : String) : Option DataType :=
  members.find? fun member => member.name = name

def encodedMember? (members : List DataType) (name : String) : Option EncodedType :=
  (member? members name).bind encoded?

/-- In the type of a data element the member `varData` has no fixed length. -/
def asVarData : DataType → DataType
  | .composite info members =>
    .composite info (members.map fun member =>
      match member with
      | .encoded memberInfo type =>
        if memberInfo.name = "varData" then .encoded memberInfo { type with isVariable := true }
        else member
      | _ => member)
  | type => type

end DataType

def EnumType.value? (type : EnumType) (name : String) : Option NamedValue :=
  type.values.find? fun value => value.name = name

def SetType.choice? (type : SetType) (name : String) : Option NamedValue :=
  type.choices.find? fun choice => choice.name = name

end SimpleBinary
