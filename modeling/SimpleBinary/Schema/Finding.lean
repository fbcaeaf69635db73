import SimpleBinary.Value.Literal
import SimpleBinary.Text.Quoted

/-! What can be wrong with a schema document, and how it is told. -/
namespace SimpleBinary

inductive Finding where
  | rootElement (name : String)
  | missingAttribute (element key : String)
  | notInteger (element key value : String)
  | notBoolean (element key value : String)
  | unknownPresence (value : String)
  | invalidName (name : String)
  | duplicateType (name : String)
  | literal (error : LiteralError) (context : String)
  | unknownPrimitive (primitive type : String)
  | negativeLength (type : String) (length : Int32)
  | lengthTooLarge (length : Int32) (type : String)
  | constantWithoutValue (type : String)
  | nullNotOptional (type : String)
  | valueRefFormat (reference : String)
  | valueRefEnum (name : String)
  | valueRefValue (name : String)
  | valueRefMismatch (reference : String)
  | duplicateMember (composite member : String)
  | recursiveReference (name type : String)
  | referenceNotFound (type : String)
  | memberOffset (member composite : String)
  | enumEncoding (encoding enum : String)
  | setEncoding (encoding set : String)
  | duplicateValueName (name : String)
  | duplicateValue (value : Value)
  | choiceOutOfBounds (choice : String) (position : Int)
  | duplicateChoiceName (name : String)
  | duplicateChoice (position : Int)
  | headerType (name : String)
  | headerWithout (member composite : String)
  | headerUnsigned (member composite : String)
  | headerWord16 (member composite : String)
  | headerShouldBeWord16 (member composite : String)
  | dimensionWithout (member composite : String)
  | varDataWithout (member composite : String)
  | memberUnsigned (member composite : String)
  | memberShouldBeNarrow (member composite : String)
  | duplicateMessageId (id : Int32)
  | duplicateMessageName (name : String)
  | fieldOrder (field : String)
  | groupOrder (group : String)
  | duplicateName (name : String)
  | duplicateId (id : Int32)
  | groupNotFound (group field : String)
  | dataNotFound (id : Int32) (field : String)
  | sinceVersion (since : Int32) (element : String) (version : Int32)
  | fieldType (type field : String)
  | dimensionType (type group : String)
  | dataType (type data : String)
  | semanticMismatch (field : String)
  | constantEnumWithoutRef (field : String)
  | insufficientOffset (field : String)
  | insufficientBlock (computed specified : Int) (element : String)
  | remark (text : String)
  deriving DecidableEq

open Text in
def Finding.message : Finding → String
  | .rootElement name => s!"root element must be messageSchema, found {quote name}"
  | .missingAttribute element key =>
    s!"element {quote element} has empty or missing attribute: {key}"
  | .notInteger element key value =>
    s!"attribute {key} of element {quote element} is not an integer: {quote value}"
  | .notBoolean element key value =>
    s!"attribute {key} of element {quote element} is not a boolean: {quote value}"
  | .unknownPresence value => s!"unknown presence {quote value}"
  | .invalidName name => s!"name is not a valid identifier: {quote name}"
  | .duplicateType name => s!"type already exists for name: {quote name}"
  | .literal error context => s!"{error.message} in {quote context}"
  | .unknownPrimitive primitive type =>
    s!"unknown primitiveType {quote primitive} for type {quote type}"
  | .negativeLength type length => s!"type {quote type} has negative length {length.toInt}"
  | .lengthTooLarge length type => s!"length {length.toInt} of type {quote type} is too large"
  | .constantWithoutValue type =>
    s!"type {quote type} has declared presence \"constant\" but no value"
  | .nullNotOptional type => s!"nullValue set, but presence is not optional for {quote type}"
  | .valueRefFormat reference => s!"valueRef format not valid (enum.value): {quote reference}"
  | .valueRefEnum name => s!"valueRef for enum name not found: {quote name}"
  | .valueRefValue name => s!"valueRef for validValue name not found: {quote name}"
  | .valueRefMismatch reference => s!"valueRef does not match field type: {quote reference}"
  | .duplicateMember composite member =>
    s!"composite {quote composite} already contains a member named {quote member}"
  | .recursiveReference name type => s!"ref {quote name} to {quote type} is recursive"
  | .referenceNotFound type => s!"ref type not found: {quote type}"
  | .memberOffset member composite =>
    s!"composite element {quote member} of {quote composite} has incorrect offset specified"
  | .enumEncoding encoding enum => s!"illegal encodingType {quote encoding} for enum {quote enum}"
  | .setEncoding encoding set => s!"illegal encodingType {quote encoding} for set {quote set}"
  | .duplicateValueName name => s!"validValue already exists for name: {quote name}"
  | .duplicateValue value => s!"validValue already exists for value: {value.display}"
  | .choiceOutOfBounds choice position =>
    s!"choice {quote choice} value out of bounds: {position}"
  | .duplicateChoiceName name => s!"choice already exists for name: {quote name}"
  | .duplicateChoice position => s!"choice already exists for value: {position}"
  | .headerType name => s!"message header type not found or not a composite: {quote name}"
  | .headerWithout member composite =>
    s!"composite for message header must have {quote member}: {quote composite}"
  | .headerUnsigned member composite => s!"{quote member} must be unsigned: {quote composite}"
  | .headerWord16 member composite => s!"{quote member} must be UINT16: {quote composite}"
  | .headerShouldBeWord16 member composite =>
    s!"{quote member} should be UINT16: {quote composite}"
  | .dimensionWithout member composite =>
    s!"composite for group size encoding must have {quote member}: {quote composite}"
  | .varDataWithout member composite =>
    s!"composite for variable length data encoding must have {quote member}: {quote composite}"
  | .memberUnsigned member composite =>
    s!"{quote member} must be unsigned type: {quote composite}"
  | .memberShouldBeNarrow member composite =>
    s!"{quote member} should be UINT8 or UINT16: {quote composite}"
  | .duplicateMessageId id => s!"message template id already exists: {id.toInt}"
  | .duplicateMessageName name => s!"message name already exists: {quote name}"
  | .fieldOrder field => s!"field {quote field} must come before any group or data element"
  | .groupOrder group => s!"group {quote group} must come before any data element"
  | .duplicateName name => s!"duplicate name found: {quote name}"
  | .duplicateId id => s!"duplicate id found: {id.toInt}"
  | .groupNotFound group field =>
    s!"could not find group {quote group} for entry count field {quote field}"
  | .dataNotFound id field =>
    s!"could not find data field with id {id.toInt} for length field {quote field}"
  | .sinceVersion since element version =>
    s!"sinceVersion {since.toInt} of {quote element} is greater than schema version {version.toInt}"
  | .fieldType type field => s!"could not find type {quote type} for field {quote field}"
  | .dimensionType type group =>
    s!"could not find dimensionType {quote type} for group {quote group}"
  | .dataType type data =>
    s!"could not find composite type {quote type} for data field {quote data}"
  | .semanticMismatch field => s!"mismatched semanticType on type and field: {quote field}"
  | .constantEnumWithoutRef field => s!"valueRef not set for constant enum {quote field}"
  | .insufficientOffset field => s!"offset provides insufficient space at field: {quote field}"
  | .insufficientBlock computed specified element =>
    s!"specified blockLength provides insufficient space {computed} > {specified} for " ++
      quote element
  | .remark text => text

inductive Severity where
  | error | warning
  deriving DecidableEq

structure Diagnostic where
  severity : Severity
  finding : Finding
  deriving DecidableEq

def Diagnostic.message (diagnostic : Diagnostic) : String :=
  match diagnostic.severity with
  | .error => "ERROR: " ++ diagnostic.finding.message
  | .warning => "WARNING: " ++ diagnostic.finding.message

end SimpleBinary
