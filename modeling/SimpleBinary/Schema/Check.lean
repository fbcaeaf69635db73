import SimpleBinary.Schema.Field
import SimpleBinary.Schema.Log
import SimpleBinary.Text.Name

/-! Rules on names, and on the composites with a part to play: the message
header, the dimensions of a group and the type of a data element. -/
namespace SimpleBinary.Check

def name (text : String) : Check Unit :=
  if Text.isName text then pure () else error (.invalidName text)

def isNarrow : Primitive → Bool
  | .uint8 | .uint16 => true
  | _ => false

def dimension (composite : String) (members : List DataType) : Check Unit := do
  match DataType.encodedMember? members "blockLength" with
  | none => error (.dimensionWithout "blockLength" composite)
  | some type =>
    if !type.primitive.isUnsigned then error (.memberUnsigned "blockLength" composite)
  match DataType.encodedMember? members "numInGroup" with
  | none => error (.dimensionWithout "numInGroup" composite)
  | some type =>
    if !type.primitive.isUnsigned then error (.memberUnsigned "numInGroup" composite)
    else if !isNarrow type.primitive then warning (.memberShouldBeNarrow "numInGroup" composite)

def varData (composite : String) (members : List DataType) : Check Unit := do
  match DataType.encodedMember? members "length" with
  | none => error (.varDataWithout "length" composite)
  | some type =>
    if !type.primitive.isUnsigned then error (.memberUnsigned "length" composite)
    else if !isNarrow type.primitive then warning (.memberShouldBeNarrow "length" composite)
  if (DataType.encodedMember? members "varData").isNone then
    error (.varDataWithout "varData" composite)

def headerMember (composite : String) (members : List DataType) (member : String) : Check Unit :=
  match DataType.encodedMember? members member with
  | none => error (.headerWithout member composite)
  | some type =>
    if type.primitive = .uint16 then pure () else error (.headerWord16 member composite)

def header (composite : String) (members : List DataType) : Check Unit := do
  match DataType.encodedMember? members "blockLength" with
  | none => error (.headerWithout "blockLength" composite)
  | some type =>
    if !type.primitive.isUnsigned then error (.headerUnsigned "blockLength" composite)
    else if type.primitive ≠ .uint16 then
      warning (.headerShouldBeWord16 "blockLength" composite)
  headerMember composite members "templateId"
  headerMember composite members "schemaId"
  headerMember composite members "version"

/-- A declared block length must hold what was computed; zero declares none. -/
def blockLength (element : String) (specified computed : Int) : Check Unit :=
  if specified ≠ 0 ∧ specified < computed then
    error (.insufficientBlock computed specified element)
  else pure ()

end SimpleBinary.Check
