import SimpleBinary.Bytes.Cursor
import SimpleBinary.Bytes.Write
import SimpleBinary.Ir

/-! The binary record of a compiled schema: three words and three texts, then
the tokens of the header and of every message, one after the other. Words are
little endian, texts and values are blocks behind a length of 16 bits, and an
empty block stands for nothing. -/
namespace SimpleBinary.Record

def recordVersion : Int32 := 0

def part (which : RecordPart) : Option (List UInt8) → Except Error (List UInt8)
  | some bytes => .ok bytes
  | none => .error (.encode which)

def encodeText (which : RecordPart) (text : Option String) : Except Error (List UInt8) :=
  part which (Bytes.text? (text.getD ""))

/-- Numbers are written at the width of the primitive of their token. -/
def sizedFor (primitive : Option Primitive) (value : Value) : Value :=
  match value, primitive with
  | .long n size, some p => .long n (if p.isFloating then size else p.size)
  | .double d size, some p => .double d (if p.isFloating then p.size else size)
  | _, _ => value

def encodeValue (which : RecordPart) (primitive : Option Primitive) (value : Option Value) :
    Except Error (List UInt8) :=
  part which (Bytes.block? ((value.map fun value =>
    (sizedFor primitive value).toBytes .little).getD []))

def encodeFixed (token : Token) : List UInt8 :=
  [token.offset, token.size, token.id, token.refId, token.version, token.deprecated,
    token.count].flatMap Bytes.ofWord32 ++
  [token.signal.ordinal, (token.encoding.primitive.map Primitive.ordinal).getD 0,
    token.encoding.byteOrder.ordinal, token.encoding.presence.ordinal]

def encodeToken (token : Token) : Except Error (List UInt8) := do
  let encoding := token.encoding
  let name ← encodeText .tokenName token.name
  let constValue ← encodeValue .constValue encoding.primitive encoding.constValue
  let minValue ← encodeValue .minValue encoding.primitive encoding.minValue
  let maxValue ← encodeValue .maxValue encoding.primitive encoding.maxValue
  let nullValue ← encodeValue .nullValue encoding.primitive encoding.nullValue
  let characterEncoding ← encodeText .characterEncoding encoding.characterEncoding
  let epoch ← encodeText .epoch encoding.epoch
  let timeUnit ← encodeText .timeUnit encoding.timeUnit
  let semanticType ← encodeText .semanticType encoding.semanticType
  let description ← encodeText .description token.description
  return encodeFixed token ++ name ++ constValue ++ minValue ++ maxValue ++ nullValue ++
    characterEncoding ++ epoch ++ timeUnit ++ semanticType ++ description

def encodeTokens : List Token → Except Error (List UInt8)
  | [] => .ok []
  | token :: rest => do
    let bytes ← encodeToken token
    return bytes ++ (← encodeTokens rest)

def tokens (ir : Ir) : List Token := ir.header.tokens ++ ir.messages.values.flatten

def encode (ir : Ir) : Except Error (List UInt8) := do
  let packageName ← encodeText .packageName ir.packageName
  let namespaceName ← encodeText .namespaceName ir.namespaceName
  let semanticVersion ← encodeText .semanticVersion ir.semanticVersion
  let body ← encodeTokens (tokens ir)
  return [ir.id, recordVersion, ir.version].flatMap Bytes.ofWord32 ++
    packageName ++ namespaceName ++ semanticVersion ++ body

abbrev Decode := StateT Cursor (Except Error)

def take (which : RecordPart) (read : Cursor → Option α × Cursor) : Decode α := fun cursor =>
  match read cursor with
  | (some value, next) => .ok (value, next)
  | (none, _) => .error (.decode (.truncated which))

/-- An empty text counts as none. -/
def decodeText (which : RecordPart) : Decode (Option String) := do
  let text ← take which Cursor.text
  return if text.isEmpty then none else some text

/-- Without a primitive, and for characters other than a single one, the block
is the value itself. -/
def valueOf (which : RecordPart) (primitive : Option Primitive) (bytes : List UInt8) :
    Except Error (Option Value) :=
  if bytes.isEmpty then .ok none
  else
    let text := some (Value.bytes bytes Value.defaultCharacterEncoding)
    match primitive with
    | none => .ok text
    | some p =>
      if p = .char ∧ bytes.length ≠ 1 then .ok text
      else match Value.read? bytes 0 p .little with
        | some value => .ok (some value)
        | none => .error (.decode (.narrowValue which bytes.length p))

def decodeValue (which : RecordPart) (primitive : Option Primitive) : Decode (Option Value) := do
  let bytes ← take which Cursor.block
  valueOf which primitive bytes

def decodeWord (index : Nat) : Decode Int32 := take (.tokenWord index) Cursor.word32

def decodeOrdinal (index : Nat) : Decode UInt8 := take (.tokenOrdinal index) Cursor.byte

def withCharacterEncoding (characterEncoding : Option String) (value : Value) : Value :=
  match value, characterEncoding with
  | .bytes bytes _, some name => .bytes bytes name
  | _, _ => value

def decodeToken : Decode Token := do
  let offset ← decodeWord 0
  let size ← decodeWord 1
  let id ← decodeWord 2
  let refId ← decodeWord 3
  let version ← decodeWord 4
  let deprecated ← decodeWord 5
  let count ← decodeWord 6
  let signal ← decodeOrdinal 0
  let primitive := Primitive.ofOrdinal? (← decodeOrdinal 1)
  let byteOrder ← decodeOrdinal 2
  let presence ← decodeOrdinal 3
  let name ← decodeText .tokenName
  let constValue ← decodeValue .constValue primitive
  let minValue ← decodeValue .minValue primitive
  let maxValue ← decodeValue .maxValue primitive
  let nullValue ← decodeValue .nullValue primitive
  let characterEncoding ← decodeText .characterEncoding
  let epoch ← decodeText .epoch
  let timeUnit ← decodeText .timeUnit
  let semanticType ← decodeText .semanticType
  let description ← decodeText .description
  return {
    offset, size, id, refId, version, deprecated, count, description
    signal := .ofOrdinal signal
    name := name.getD ""
    encoding :=
      { primitive, minValue, maxValue, nullValue, characterEncoding, epoch, timeUnit, semanticType
        presence := .ofOrdinal presence
        byteOrder := .ofOrdinal byteOrder
        constValue := constValue.map (withCharacterEncoding characterEncoding) } }

/-- Tokens up to the end. Each takes bytes, so the number of those is fuel
enough; `found` is in reverse. -/
def decodeTokens (found : List Token) : Nat → Cursor → Except Error (List Token)
  | 0, _ => .ok found.reverse
  | fuel + 1, cursor =>
    if cursor.rest.isEmpty then .ok found.reverse
    else do
      let (token, next) ← decodeToken.run cursor
      decodeTokens (token :: found) fuel next

/-- The messages of a run that starts at an index of the whole. Each takes
tokens, so the number of those is fuel enough. -/
def addMessages (ir : Ir) (index : Nat) : Nat → List Token → Except Error Ir
  | _, [] => .ok ir
  | 0, _ :: _ => .ok ir
  | fuel + 1, token :: rest =>
    if token.signal ≠ .beginMessage then .error (.decode (.notMessage index token.signal))
    else match Token.findEnd (token :: rest) 0 with
      | none => .error (.decode (.openMessage token.name))
      | some last =>
        addMessages (ir.addMessage token.id ((token :: rest).take (last + 1)))
          (index + last + 1) fuel ((token :: rest).drop (last + 1))

def headerEnd : List Token → Except Error Nat
  | [] => .error (.decode .noHeader)
  | token :: rest =>
    if token.signal = .beginComposite then
      match Token.findEnd (token :: rest) 0 with
      | some last => .ok last
      | none => .error (.decode .openHeader)
    else .error (.decode .noHeader)

def byteOrderOf (header : List Token) : ByteOrder :=
  ((header.find? fun token => token.signal = .encoding).map (·.encoding.byteOrder)).getD .little

def decode (data : List UInt8) : Except Error Ir := do
  let fields : Decode (Int32 × Int32 × Option String × Option String × Option String) := do
    let id ← take .id Cursor.word32
    let version ← take .recordVersion Cursor.word32
    if version ≠ recordVersion then throw (.recordVersion version)
    let schemaVersion ← take .schemaVersion Cursor.word32
    let packageName ← decodeText .packageName
    let namespaceName ← decodeText .namespaceName
    let semanticVersion ← decodeText .semanticVersion
    return (id, schemaVersion, packageName, namespaceName, semanticVersion)
  let ((id, version, packageName, namespaceName, semanticVersion), cursor) ←
    fields.run (.ofBytes data)
  let tokens ← decodeTokens [] data.length cursor
  let last ← headerEnd tokens
  let header := tokens.take (last + 1)
  let ir ← Ir.create (packageName.getD "") namespaceName id version semanticVersion
    (byteOrderOf header) header
  addMessages ir (last + 1) tokens.length (tokens.drop (last + 1))

end SimpleBinary.Record
