import SimpleBinary.Schema.Field
import SimpleBinary.Table

/-! A schema: its types by name and its messages by identity. -/
namespace SimpleBinary

structure Schema where
  packageName : String
  id : Int32
  version : Int32 := 0
  description : Option String := none
  semanticVersion : Option String := none
  byteOrder : ByteOrder := .little
  headerType : String := "messageHeader"
  types : Table String DataType
  messages : Table Int32 Message := .empty

namespace Schema

def builtInTypes : Table String DataType :=
  Primitive.all.foldl (fun table primitive => table.insert primitive.name (.ofPrimitive primitive))
    .empty

def header? (schema : Schema) : Option (List DataType) :=
  (schema.types.get? schema.headerType).bind DataType.composite?

def declaredTypeCount (schema : Schema) : Nat :=
  (schema.types.keys.filter fun name => (Primitive.ofName? name).isNone).length

end Schema
end SimpleBinary
