import SimpleBinary.Text.Quoted
import SimpleBinary.Token

/-! Why a header is unusable, and why a binary record cannot be written or
read. -/
namespace SimpleBinary

inductive HeaderFault where
  | typeNotFound (name : String)
  | notComposite (name : String)
  | noPrimitive (member : String)
  | noMember (member : String)
  deriving DecidableEq

open Text in
def HeaderFault.message : HeaderFault → String
  | .typeNotFound name => s!"header type not found: {quote name}"
  | .notComposite name => s!"header type is not a composite: {quote name}"
  | .noPrimitive member => s!"no primitive type for {quote member}"
  | .noMember member => s!"header has no {quote member}"

inductive RecordPart where
  | id | recordVersion | schemaVersion
  | packageName | namespaceName | semanticVersion
  | tokenWord (index : Nat)
  | tokenOrdinal (index : Nat)
  | tokenName | constValue | minValue | maxValue | nullValue
  | characterEncoding | epoch | timeUnit | semanticType | description
  deriving DecidableEq

def RecordPart.label : RecordPart → String
  | .id => "IR id"
  | .recordVersion => "IR version"
  | .schemaVersion => "schema version"
  | .packageName => "package name"
  | .namespaceName => "namespace name"
  | .semanticVersion => "semantic version"
  | .tokenWord index => s!"token header word {index}"
  | .tokenOrdinal index => s!"token ordinal {index}"
  | .tokenName => "token name"
  | .constValue => "const value"
  | .minValue => "min value"
  | .maxValue => "max value"
  | .nullValue => "null value"
  | .characterEncoding => "character encoding"
  | .epoch => "epoch"
  | .timeUnit => "time unit"
  | .semanticType => "semantic type"
  | .description => "description"

inductive DecodeFault where
  | truncated (part : RecordPart)
  | narrowValue (part : RecordPart) (length : Nat) (primitive : Primitive)
  | noHeader
  | openHeader
  | notMessage (index : Nat) (signal : Signal)
  | openMessage (name : String)
  deriving DecidableEq

def DecodeFault.message : DecodeFault → String
  | .truncated part => s!"Failed to read {part.label}: ()"
  | .narrowValue part length primitive =>
    s!"Failed to read {part.label}: {length} bytes for {primitive.name} (())"
  | .noHeader => "IR does not start with a header composite"
  | .openHeader => "header composite has no end token"
  | .notMessage index signal => s!"expected BEGIN_MESSAGE at token {index}, found {signal.title}"
  | .openMessage name => s!"message {name} has no end token"

end SimpleBinary
