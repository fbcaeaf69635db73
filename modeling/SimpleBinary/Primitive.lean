/-! The catalogue of primitive types, the order of the bytes of a word, and
the presence of an element. Names are those of schema documents, ordinals
those of the binary record. -/
namespace SimpleBinary

inductive Primitive where
  | char | int8 | int16 | int32 | int64
  | uint8 | uint16 | uint32 | uint64
  | float | double
  deriving DecidableEq

namespace Primitive

def all : List Primitive :=
  [.char, .int8, .int16, .int32, .int64, .uint8, .uint16, .uint32, .uint64, .float, .double]

def name : Primitive → String
  | .char => "char"
  | .int8 => "int8"
  | .int16 => "int16"
  | .int32 => "int32"
  | .int64 => "int64"
  | .uint8 => "uint8"
  | .uint16 => "uint16"
  | .uint32 => "uint32"
  | .uint64 => "uint64"
  | .float => "float"
  | .double => "double"

def ofName? (text : String) : Option Primitive :=
  all.find? fun p => p.name = text

@[simp] theorem ofName?_name (p : Primitive) : ofName? p.name = some p := by
  cases p <;> decide

def size : Primitive → Nat
  | .char | .int8 | .uint8 => 1
  | .int16 | .uint16 => 2
  | .int32 | .uint32 | .float => 4
  | .int64 | .uint64 | .double => 8

def isUnsigned : Primitive → Bool
  | .uint8 | .uint16 | .uint32 | .uint64 => true
  | _ => false

def isFloating : Primitive → Bool
  | .float | .double => true
  | _ => false

/-- Zero is left for "no primitive". -/
def ordinal : Primitive → UInt8
  | .char => 1
  | .int8 => 2
  | .int16 => 3
  | .int32 => 4
  | .int64 => 5
  | .uint8 => 6
  | .uint16 => 7
  | .uint32 => 8
  | .uint64 => 9
  | .float => 10
  | .double => 11

def ofOrdinal? (ordinal : UInt8) : Option Primitive :=
  all.find? fun p => p.ordinal = ordinal

@[simp] theorem ofOrdinal?_ordinal (p : Primitive) : ofOrdinal? p.ordinal = some p := by
  cases p <;> decide

end Primitive

inductive ByteOrder where
  | little | big
  deriving DecidableEq

namespace ByteOrder

def name : ByteOrder → String
  | .little => "littleEndian"
  | .big => "bigEndian"

/-- Every other text means little endian. -/
def ofName (text : String) : ByteOrder :=
  if text = "bigEndian" then .big else .little

def ordinal : ByteOrder → UInt8
  | .little => 0
  | .big => 1

def ofOrdinal (ordinal : UInt8) : ByteOrder :=
  if ordinal = 1 then .big else .little

@[simp] theorem ofName_name (o : ByteOrder) : ofName o.name = o := by
  cases o <;> decide

@[simp] theorem ofOrdinal_ordinal (o : ByteOrder) : ofOrdinal o.ordinal = o := by
  cases o <;> decide

end ByteOrder

inductive Presence where
  | required | optional | constant
  deriving DecidableEq

namespace Presence

def name : Presence → String
  | .required => "required"
  | .optional => "optional"
  | .constant => "constant"

def ofName? (text : String) : Option Presence :=
  [.required, .optional, .constant].find? fun p => p.name = text

def ordinal : Presence → UInt8
  | .required => 0
  | .optional => 1
  | .constant => 2

/-- Unknown ordinals mean required. -/
def ofOrdinal (ordinal : UInt8) : Presence :=
  if ordinal = 1 then .optional else if ordinal = 2 then .constant else .required

@[simp] theorem ofName?_name (p : Presence) : ofName? p.name = some p := by
  cases p <;> decide

@[simp] theorem ofOrdinal_ordinal (p : Presence) : ofOrdinal p.ordinal = p := by
  cases p <;> decide

end Presence
end SimpleBinary
