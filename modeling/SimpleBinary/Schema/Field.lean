import SimpleBinary.Schema.Type
import SimpleBinary.Token

/-! Fields, groups and data elements, and the messages made of them. -/
namespace SimpleBinary

def defaultEpoch : String := "unix"

def defaultTimeUnit : String := "nanosecond"

/-- What every element of a message has. The links are indices of siblings in
the same list. -/
structure FieldInfo where
  name : String
  id : Int32
  description : Option String := none
  /-- The declared offset, zero when there is none. -/
  offset : Int32 := 0
  semanticType : Option String := none
  presence : Presence := .required
  valueRef : Option String := none
  sinceVersion : Int32 := 0
  deprecated : Int32 := 0
  epoch : String := defaultEpoch
  timeUnit : String := defaultTimeUnit
  groupName : Option String := none
  refId : Int32 := invalidId
  computedOffset : Int := 0
  computedBlockLength : Int := 0
  entryCountField : Option Nat := none
  groupField : Option Nat := none
  lengthField : Option Nat := none
  dataField : Option Nat := none
  deriving DecidableEq

inductive Field where
  | plain (info : FieldInfo) (type : DataType)
  | group (info : FieldInfo) (dimension : DataType) (blockLength : Int32) (fields : List Field)
  | data (info : FieldInfo) (type : DataType)

namespace Field

def info : Field → FieldInfo
  | .plain info _ | .group info _ _ _ | .data info _ => info

def mapInfo (change : FieldInfo → FieldInfo) : Field → Field
  | .plain info type => .plain (change info) type
  | .group info dimension blockLength fields => .group (change info) dimension blockLength fields
  | .data info type => .data (change info) type

@[simp] theorem info_mapInfo (change : FieldInfo → FieldInfo) (field : Field) :
    (field.mapInfo change).info = change field.info := by
  cases field <;> rfl

def name (field : Field) : String := field.info.name

def isGroup : Field → Bool
  | .group .. => true
  | _ => false

def isData : Field → Bool
  | .data .. => true
  | _ => false

def type? : Field → Option DataType
  | .plain _ type => some type
  | .data _ type => some type
  | .group .. => none

def isVariable : Field → Bool
  | .data .. => true
  | .plain _ type => type.isVariable
  | .group .. => false

def isConstant (field : Field) : Bool :=
  field.info.presence = .constant || (field.type?.any DataType.isConstant)

end Field

structure Message where
  id : Int32
  name : String
  description : Option String := none
  declaredBlockLength : Int32 := 0
  computedBlockLength : Int := 0
  semanticType : Option String := none
  sinceVersion : Int32 := 0
  deprecated : Int32 := 0
  fields : List Field := []

def Message.blockLength (message : Message) : Int :=
  max message.declaredBlockLength.toInt message.computedBlockLength

end SimpleBinary
