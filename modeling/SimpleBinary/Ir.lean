import SimpleBinary.Error
import SimpleBinary.Table
import SimpleBinary.Token.Run

/-! The compiled form of a schema: the run of the message header, one run for
every message, and an index of the composites, enums and sets in them. -/
namespace SimpleBinary

structure HeaderStructure where
  tokens : List Token
  blockLength : Primitive
  templateId : Primitive
  schemaId : Primitive
  version : Primitive
  deriving DecidableEq, BEq

namespace HeaderStructure

/-- The first encoding of that name in a run. -/
def memberOf? (tokens : List Token) (name : String) : Option Token :=
  tokens.find? fun token => token.signal = .encoding && token.name = name

def member? (header : HeaderStructure) (name : String) : Option Token :=
  memberOf? header.tokens name

def primitiveOf (tokens : List Token) (name : String) : Except Error Primitive :=
  match (memberOf? tokens name).bind (·.encoding.primitive) with
  | some primitive => .ok primitive
  | none => .error (.header (.noPrimitive name))

def ofTokens (tokens : List Token) : Except Error HeaderStructure := do
  let blockLength ← primitiveOf tokens "blockLength"
  let templateId ← primitiveOf tokens "templateId"
  let schemaId ← primitiveOf tokens "schemaId"
  let version ← primitiveOf tokens "version"
  return { tokens, blockLength, templateId, schemaId, version }

def primitives (header : HeaderStructure) : List Primitive :=
  [header.blockLength, header.templateId, header.schemaId, header.version]

end HeaderStructure

structure Ir where
  packageName : String
  namespaceName : Option String
  id : Int32
  version : Int32
  semanticVersion : Option String
  byteOrder : ByteOrder
  header : HeaderStructure
  messages : Table Int32 (List Token)
  types : Table String (List Token)
  deriving BEq

namespace Ir

/-- Every closed composite, enum and set of a run under its name; a later one
takes the place of an earlier one. -/
def captureTypes (types : Table String (List Token)) : List Token → Table String (List Token)
  | [] => types
  | token :: rest =>
    let captured :=
      if token.signal.opensType then
        match Token.findEnd (token :: rest) 0 with
        | some last => types.insert token.name ((token :: rest).take (last + 1))
        | none => types
      else types
    captureTypes captured rest

def create (packageName : String) (namespaceName : Option String) (id version : Int32)
    (semanticVersion : Option String) (byteOrder : ByteOrder) (headerTokens : List Token) :
    Except Error Ir := do
  let header ← HeaderStructure.ofTokens headerTokens
  return {
    packageName, namespaceName, id, version, semanticVersion, byteOrder, header
    messages := .empty
    types := captureTypes .empty headerTokens }

/-- A run of the same identity is replaced; its types stay in the index. -/
def addMessage (ir : Ir) (id : Int32) (tokens : List Token) : Ir :=
  { ir with
    messages := ir.messages.insert id tokens
    types := captureTypes ir.types tokens }

def applicableNamespace (ir : Ir) : String := ir.namespaceName.getD ir.packageName

end Ir
end SimpleBinary
