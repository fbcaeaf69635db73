import SimpleBinary.Ir
import SimpleBinary.Schema
import SimpleBinary.Schema.Log

/-! The flattening of a schema into runs of tokens. A run is written from left
to right: every element adds its begin token, what is inside it and its end
token. The links between the elements of a list are filled in behind the last
of them, on a run whose outer elements are still open. -/
namespace SimpleBinary

namespace DataType

def lengthsFit (length : Int) : List DataType → Bool
  | [] => true
  | member :: rest =>
    let start := member.start length
    let next := if member.isConstant then start else start + member.encodedLength
    member.isVariable || Check.fits next && lengthsFit next rest

mutual

/-- Whether the lengths and the offsets inside a type are words. Arithmetic is
checked: what does not fit is refused here, as it is when a type is read and
when a block is laid out. -/
def fits : DataType → Bool
  | .composite _ members => lengthsFit 0 members && membersFit 0 members
  | .encoded .. | .enum .. | .set .. => true

/-- Behind a member of variable length the offsets go on. -/
def membersFit (offset : Int) : List DataType → Bool
  | [] => true
  | member :: rest =>
    let next := member.start offset + member.encodedLength
    member.fits && Check.fits next && membersFit next rest

end

end DataType

namespace Field

mutual

def fits : Field → Bool
  | .plain _ type | .data _ type => type.fits
  | .group _ dimension _ fields => dimension.fits && allFit fields

def allFit : List Field → Bool
  | [] => true
  | field :: rest => field.fits && allFit rest

end

end Field

namespace Generate

/-- The type's own semantic type comes before that of the field. -/
def semanticType (type : TypeInfo) (field : Option FieldInfo) : Option String :=
  type.semanticType <|> field.bind (·.semanticType)

/-- A description of the field comes before that of the type, unless empty. -/
def description (type : TypeInfo) (field : Option FieldInfo) : Option String :=
  match field.bind (·.description) with
  | some text => if text.isEmpty then type.description else some text
  | none => type.description

def typeToken (signal : Signal) (type : TypeInfo) (offset size : Int) (field : Option FieldInfo)
    (encoding : Encoding) : Token :=
  { signal
    name := type.name
    description := description type field
    version := (field.map (·.sinceVersion)).getD type.sinceVersion
    deprecated := (field.map (·.deprecated)).getD type.deprecated
    offset := Int32.ofInt offset
    size := Int32.ofInt size
    encoding }

def namedToken (order : ByteOrder) (signal : Signal) (primitive : Primitive)
    (named : NamedValue) : Token :=
  { signal
    name := named.name
    description := named.description
    version := named.sinceVersion
    deprecated := named.deprecated
    encoding := { primitive, byteOrder := order, constValue := named.value } }

def addEnum (order : ByteOrder) (info : TypeInfo) (type : EnumType) (offset : Int)
    (field : Option FieldInfo) (tokens : List Token) : List Token :=
  let nullValue :=
    if info.presence = .optional then some (type.nullValue.getD type.encoding.nullValue) else none
  let opening := typeToken .beginEnum info offset type.encoding.size field
    { primitive := type.encoding, byteOrder := order, presence := info.presence, nullValue,
      semanticType := semanticType info field }
  tokens ++ [opening] ++ type.values.map (namedToken order .validValue type.encoding) ++
    [{ opening with signal := .endEnum }]

def addSet (order : ByteOrder) (info : TypeInfo) (type : SetType) (offset : Int)
    (field : Option FieldInfo) (tokens : List Token) : List Token :=
  let opening := typeToken .beginSet info offset type.encoding.size field
    { primitive := type.encoding, byteOrder := order, semanticType := semanticType info field }
  tokens ++ [opening] ++ type.choices.map (namedToken order .choice type.encoding) ++
    [{ opening with signal := .endSet }]

def encodedPresence (info : TypeInfo) (field : Option FieldInfo) : Presence :=
  if info.presence = .required ∧ field.any (·.presence = .optional) then .optional
  else info.presence

/-- Constants carry their value, all others their limits, and only optional
ones a null value. -/
def encodedToken (order : ByteOrder) (info : TypeInfo) (type : EncodedType) (size offset : Int)
    (field : Option FieldInfo) : Token :=
  let presence := encodedPresence info field
  typeToken .encoding info offset size field
    { presence
      primitive := type.primitive
      byteOrder := order
      minValue := if presence = .constant then none else type.minValue
      maxValue := if presence = .constant then none else type.maxValue
      nullValue := if presence = .optional then type.nullValue else none
      constValue := if presence = .constant then type.constValue else none
      characterEncoding := type.characterEncoding
      epoch := field.map (·.epoch)
      timeUnit := field.map (·.timeUnit)
      semanticType := semanticType info field }

mutual

def addType (order : ByteOrder) (offset : Int) (field : Option FieldInfo) (tokens : List Token) :
    DataType → List Token
  | .encoded info type =>
    tokens ++
      [encodedToken order info type (DataType.encoded info type).encodedLength offset field]
  | .composite info members =>
    let opening := typeToken .beginComposite info offset
      (DataType.composite info members).encodedLength field
      { semanticType := semanticType info field }
    addMembers order 0 (tokens ++ [opening]) members ++ [{ opening with signal := .endComposite }]
  | .enum info type => addEnum order info type offset field tokens
  | .set info type => addSet order info type offset field tokens

def addMembers (order : ByteOrder) (offset : Int) (tokens : List Token) :
    List DataType → List Token
  | [] => tokens
  | member :: rest =>
    let start := member.start offset
    addMembers order (start + member.encodedLength) (addType order start none tokens member) rest

end

def fieldToken (signal : Signal) (info : FieldInfo) (refId : Int32) : Token :=
  let reference := if info.presence = .constant then info.valueRef else none
  { signal
    name := info.name
    description := info.description
    id := info.id
    refId
    version := info.sinceVersion
    deprecated := info.deprecated
    offset := Int32.ofInt info.computedOffset
    size := Int32.ofInt info.computedBlockLength
    encoding :=
      { presence := info.presence
        primitive := reference.map fun _ => .char
        constValue := reference.map fun text => .bytes (Text.utf8 text) "UTF-8"
        epoch := info.epoch
        timeUnit := info.timeUnit
        semanticType := info.semanticType } }

def link (info : FieldInfo) : Option Nat :=
  info.entryCountField <|> info.lengthField <|> info.groupField <|> info.dataField

def addSignal (signal : Signal) (info : FieldInfo) (tokens : List Token) : List Token :=
  tokens ++ [fieldToken signal info invalidId]

def pointed (target : Nat) (token : Token) : Token :=
  { token with refId := Int32.ofNat target }

/-- Points the token at `start`, and the one found to close it, at `target`. -/
def pointAt (start target : Nat) (tokens : List Token) : List Token :=
  let opened := tokens.modify start (pointed target)
  match Token.findEnd opened start with
  | some stop => opened.modify stop (pointed target)
  | none => opened

def linkField (starts : List Nat) (field : Field) (start : Nat) (tokens : List Token) :
    List Token :=
  match (link field.info).bind (starts[·]?) with
  | some target => pointAt start target tokens
  | none => tokens

def linkFields (starts : List Nat) (fields : List Field) (tokens : List Token) : List Token :=
  (fields.zip starts).foldl (fun tokens entry => linkField starts entry.1 entry.2 tokens) tokens

mutual

def addField (order : ByteOrder) (tokens : List Token) : Field → List Token
  | .plain info type =>
    addSignal .endField info
      (addType order info.computedOffset info (addSignal .beginField info tokens) type)
  | .data info type =>
    addSignal .endVarData info
      (addType order info.computedOffset info (addSignal .beginVarData info tokens) type)
  | .group info dimension _ fields =>
    let added := addEach order (addType order 0 info (addSignal .beginGroup info tokens) dimension)
      fields
    addSignal .endGroup info (linkFields added.2 fields added.1)

/-- The run with the fields in it, and where each of them begins. -/
def addEach (order : ByteOrder) (tokens : List Token) : List Field → List Token × List Nat
  | [] => (tokens, [])
  | field :: rest =>
    let added := addEach order (addField order tokens field) rest
    (added.1, tokens.length :: added.2)

end

def addFields (order : ByteOrder) (tokens : List Token) (fields : List Field) : List Token :=
  let added := addEach order tokens fields
  linkFields added.2 fields added.1

def messageToken (signal : Signal) (message : Message) : Token :=
  { signal
    name := message.name
    description := message.description
    id := message.id
    version := message.sinceVersion
    deprecated := message.deprecated
    size := Int32.ofInt message.blockLength
    encoding := { semanticType := message.semanticType } }

def headerTokens (order : ByteOrder) (header : DataType) : List Token :=
  Token.recount (addType order 0 none [] header)

def messageTokens (order : ByteOrder) (message : Message) : List Token :=
  Token.recount (addFields order [messageToken .beginMessage message] message.fields ++
    [messageToken .endMessage message])

end Generate

namespace Schema

def requireFit (fit : Bool) : Except Error Unit :=
  if fit then .ok () else .error .tooLarge

def compile (schema : Schema) (namespaceName : Option String) : Except Error Ir := do
  let header ← match schema.types.get? schema.headerType with
    | none => throw (.header (.typeNotFound schema.headerType))
    | some (.composite info members) => pure (DataType.composite info members)
    | some _ => throw (.header (.notComposite schema.headerType))
  requireFit header.fits
  let ir ← Ir.create schema.packageName namespaceName schema.id schema.version
    schema.semanticVersion schema.byteOrder (Generate.headerTokens schema.byteOrder header)
  requireFit (schema.messages.values.all (Field.allFit ·.fields))
  return schema.messages.entries.foldl
    (fun ir entry => ir.addMessage entry.2.id (Generate.messageTokens schema.byteOrder entry.2)) ir

end Schema
end SimpleBinary
