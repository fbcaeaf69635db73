import SimpleBinary.Ir
import SimpleBinary.Walk.Value

/-! The reading of message headers. -/
namespace SimpleBinary.Walk

structure HeaderMember where
  offset : Nat
  primitive : Primitive
  byteOrder : ByteOrder
  deriving DecidableEq

def HeaderMember.ofStructure (header : HeaderStructure) (name : String) :
    Except Error HeaderMember := do
  match header.member? name with
  | none => throw (.header (.noMember name))
  | some token =>
    match token.encoding.primitive with
    | none => throw (.header (.noPrimitive name))
    | some primitive =>
      match toIndex token.offset name with
      | .error fault => throw (.walk fault)
      | .ok offset => return { offset, primitive, byteOrder := token.encoding.byteOrder }

def HeaderMember.read (member : HeaderMember) (buffer : List UInt8) (index : Nat) :
    Except WalkFault Int64 :=
  readInteger buffer (index + member.offset) member.primitive member.byteOrder

structure HeaderReader where
  length : Nat
  blockLength : HeaderMember
  templateId : HeaderMember
  schemaId : HeaderMember
  version : HeaderMember
  deriving DecidableEq

/-- The length is that of the first token, zero without one. -/
def HeaderReader.ofStructure (header : HeaderStructure) : Except Error HeaderReader := do
  let size := (header.tokens.head?.map (·.size)).getD 0
  let length ← match toIndex size "header" with
    | .error fault => throw (.walk fault)
    | .ok length => pure length
  let blockLength ← HeaderMember.ofStructure header "blockLength"
  let templateId ← HeaderMember.ofStructure header "templateId"
  let schemaId ← HeaderMember.ofStructure header "schemaId"
  let version ← HeaderMember.ofStructure header "version"
  return { length, blockLength, templateId, schemaId, version }

end SimpleBinary.Walk
