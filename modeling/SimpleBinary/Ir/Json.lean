import SimpleBinary.Ir.Record
import SimpleBinary.Json

/-! Compiled schemas as JSON documents. -/
namespace SimpleBinary

def Value.json : Value → Json
  | .long value size =>
    .object [("representation", .text "long"), ("value", .integer value.toInt),
      ("size", .integer size)]
  | .double value size =>
    .object [("representation", .text "double"), ("value", .double value), ("size", .integer size)]
  | .bytes value characterEncoding =>
    .object [("representation", .text "bytes"),
      ("value", .array (value.map fun byte => .integer byte.toNat)),
      ("character_encoding", .text characterEncoding), ("size", .integer value.length)]

def ByteOrder.json : ByteOrder → Json
  | .little => .text "LittleEndian"
  | .big => .text "BigEndian"

def Primitive.json (primitive : Primitive) : Json := .text primitive.name

open Json (optional)

def Encoding.json (encoding : Encoding) : Json :=
  .object [
    ("presence", .text encoding.presence.name),
    ("primitive_type", optional encoding.primitive Primitive.json),
    ("byte_order", encoding.byteOrder.json),
    ("min_value", optional encoding.minValue Value.json),
    ("max_value", optional encoding.maxValue Value.json),
    ("null_value", optional encoding.nullValue Value.json),
    ("const_value", optional encoding.constValue Value.json),
    ("character_encoding", optional encoding.characterEncoding .text),
    ("epoch", optional encoding.epoch .text),
    ("time_unit", optional encoding.timeUnit .text),
    ("semantic_type", optional encoding.semanticType .text)]

def Token.json (token : Token) : Json :=
  .object [
    ("signal", .text token.signal.name),
    ("name", .text token.name),
    ("description", optional token.description .text),
    ("id", .integer token.id.toInt),
    ("ref_id", .integer token.refId.toInt),
    ("version", .integer token.version.toInt),
    ("deprecated", .integer token.deprecated.toInt),
    ("offset", .integer token.offset.toInt),
    ("size", .integer token.size.toInt),
    ("component_token_count", .integer token.count.toInt),
    ("encoding", token.encoding.json)]

def Token.jsonAll (tokens : List Token) : Json := .array (tokens.map Token.json)

def HeaderStructure.json (header : HeaderStructure) : Json :=
  .object [
    ("tokens", Token.jsonAll header.tokens),
    ("block_length_type", header.blockLength.json),
    ("template_id_type", header.templateId.json),
    ("schema_id_type", header.schemaId.json),
    ("schema_version_type", header.version.json)]

def Ir.json (ir : Ir) : Json :=
  .object [
    ("package_name", .text ir.packageName),
    ("namespace_name", optional ir.namespaceName .text),
    ("id", .integer ir.id.toInt),
    ("version", .integer ir.version.toInt),
    ("semantic_version", optional ir.semanticVersion .text),
    ("byte_order", ir.byteOrder.json),
    ("header_structure", ir.header.json),
    ("messages", .object (ir.messages.entries.map fun entry =>
      (toString entry.1.toInt, Token.jsonAll entry.2))),
    ("types", .object (ir.types.entries.map fun entry => (entry.1, Token.jsonAll entry.2)))]

def Record.toJson (data : List UInt8) : Except Error String := do
  return (← Record.decode data).json.pretty

end SimpleBinary
