import SimpleBinary.Schema
import SimpleBinary.Schema.Attribute

/-! The reading of messages: plain fields, then groups, then data elements,
with links between a count or a length and what it counts or measures. -/
namespace SimpleBinary.MessageReader
open Xml (Element)

structure Vocabulary where
  types : Table String DataType
  version : Int32

/-- What every field has, whatever its kind. Without a presence of its own it
has that of its type. -/
def fieldInfo (vocabulary : Vocabulary) (element : Element) (name : String) (id : Int32)
    (typePresence : Presence) : Check FieldInfo := do
  Check.name name
  let offset ← element.word "offset" 0
  let presence := (← element.presence?).getD typePresence
  let sinceVersion ← element.word "sinceVersion" 0
  let deprecated ← element.word "deprecated" 0
  let refId ← element.word "refId" invalidId
  if vocabulary.version < sinceVersion then
    Check.error (.sinceVersion sinceVersion name vocabulary.version)
  return {
    name, id, offset, presence, sinceVersion, deprecated, refId
    description := element.attribute? "description"
    semanticType := element.attribute? "semanticType"
    valueRef := element.attribute? "valueRef"
    epoch := (element.attribute? "epoch").getD defaultEpoch
    timeUnit := (element.attribute? "timeUnit").getD defaultTimeUnit
    groupName := element.attribute? "groupName" }

def checkConstant (enumName reference : String) (enum : EnumType) : DataType → Check Unit
  | .enum info _ =>
    if info.name ≠ enumName then Check.error (.valueRefEnum enumName) else pure ()
  | .encoded _ type =>
    if type.primitive = enum.encoding then pure () else Check.error (.valueRefMismatch reference)
  | _ => Check.error (.valueRefMismatch reference)

def checkValueRef (vocabulary : Vocabulary) (info : FieldInfo) (type : DataType)
    (reference : String) : Check Unit := do
  match Text.dottedName? reference with
  | none => Check.error (.valueRefFormat reference)
  | some (enumName, valueName) =>
    match (vocabulary.types.get? enumName).bind DataType.enum? with
    | none => Check.error (.valueRefEnum enumName)
    | some enum =>
      if (enum.value? valueName).isNone then Check.error (.valueRefValue valueName)
      if info.presence = .constant then checkConstant enumName reference enum type

def checkField (vocabulary : Vocabulary) (info : FieldInfo) (type : DataType) : Check Unit := do
  match info.semanticType, type.info.semanticType with
  | some ofField, some ofType =>
    if ofField ≠ ofType then Check.error (.semanticMismatch info.name)
  | _, _ => pure ()
  if type.enum?.isSome ∧ info.presence = .constant ∧ info.valueRef.isNone then
    Check.error (.constantEnumWithoutRef info.name)
  match info.valueRef with
  | none => pure ()
  | some reference => checkValueRef vocabulary info type reference

def readPlain (vocabulary : Vocabulary) (element : Element) : Check (Option Field) := do
  let name ← element.required "name"
  let id ← element.requiredWord "id"
  let typeName ← element.required "type"
  match vocabulary.types.get? typeName with
  | none =>
    Check.error (.fieldType typeName name)
    return none
  | some type =>
    let info ← fieldInfo vocabulary element name id type.info.presence
    checkField vocabulary info type
    return some (.plain info type)

def readData (vocabulary : Vocabulary) (element : Element) : Check (Option Field) := do
  let name ← element.required "name"
  let id ← element.requiredWord "id"
  let typeName ← element.required "type"
  match vocabulary.types.get? typeName with
  | some (.composite typeInfo members) =>
    Check.varData typeName members
    let info ← fieldInfo vocabulary element name id typeInfo.presence
    return some (.data info (DataType.composite typeInfo members).asVarData)
  | _ =>
    Check.error (.dataType typeName name)
    return none

structure Before where
  group : Bool := false
  data : Bool := false

def Before.after (before : Before) (element : Element) : Before :=
  { group := before.group || element.name = "group"
    data := before.data || element.name = "data" }

def checkOrder (before : Before) (element : Element) : Check Unit :=
  let name := (element.attribute? "name").getD ""
  if element.name = "field" ∧ (before.group ∨ before.data) then Check.error (.fieldOrder name)
  else if element.name = "group" ∧ before.data then Check.error (.groupOrder name)
  else pure ()

/-- Names are reported when they repeat, and so are identities; the field is
kept. -/
def addField (fields : List Field) (field : Field) : Check (List Field) := do
  if fields.any (·.name = field.name) then Check.error (.duplicateName field.name)
  if field.info.id ≠ invalidId ∧ fields.any (·.info.id = field.info.id) then
    Check.error (.duplicateId field.info.id)
  return fields ++ [field]

def indexOf? (fields : List Field) (first : Nat) (accepts : Field → Bool) : Option Nat :=
  (List.range fields.length).find? fun index => first ≤ index && fields[index]?.any accepts

/-- A count is linked with the group behind it that it names. -/
def linkGroup (fields : List Field) (index : Nat) (info : FieldInfo) : Check (List Field) :=
  match info.groupName with
  | none => pure fields
  | some group =>
    match indexOf? fields (index + 1) fun field => field.isGroup && field.name = group with
    | some target =>
      let fields := fields.modify index (·.mapInfo fun info => { info with groupField := target })
      return fields.modify target (·.mapInfo fun info => { info with entryCountField := index })
    | none => do
      Check.warning (.groupNotFound group info.name)
      return fields

/-- A length is linked with the data element whose identity it gives. -/
def linkData (fields : List Field) (index : Nat) (info : FieldInfo) : Check (List Field) :=
  if info.refId = invalidId then pure fields
  else
    match indexOf? fields 0 fun field => field.isData && field.info.id = info.refId with
    | some target =>
      let fields := fields.modify index (·.mapInfo fun info => { info with dataField := target })
      return fields.modify target (·.mapInfo fun info => { info with lengthField := index })
    | none => do
      Check.warning (.dataNotFound info.refId info.name)
      return fields

def linkFields (fields : List Field) : Check (List Field) :=
  (List.range fields.length).foldlM (fun linked index => do
    match linked[index]? with
    | none => return linked
    | some field =>
      linkData (← linkGroup linked index field.info) index field.info) fields

mutual

def readField (vocabulary : Vocabulary) : Element → Check (Option Field)
  | ⟨tag, attributes, text, children⟩ => do
    let element : Element := ⟨tag, attributes, text, children⟩
    if tag = "field" then readPlain vocabulary element
    else if tag = "data" then readData vocabulary element
    else if tag = "group" then
      let name ← element.required "name"
      let id ← element.word "id" invalidId
      let blockLength ← element.word "blockLength" 0
      let dimensionName := (element.attribute? "dimensionType").getD "groupSizeEncoding"
      match vocabulary.types.get? dimensionName with
      | some (.composite info members) =>
        Check.dimension dimensionName members
        let fields ← linkFields (← readFields vocabulary {} [] children)
        let fieldInfo ← fieldInfo vocabulary element name id .required
        return some (.group fieldInfo (.composite info members) blockLength fields)
      | _ =>
        Check.error (.dimensionType dimensionName name)
        return none
    else return none

def readFields (vocabulary : Vocabulary) (before : Before) (fields : List Field) :
    List Element → Check (List Field)
  | [] => pure fields
  | element :: rest => do
    checkOrder before element
    let fields ← match ← readField vocabulary element with
      | some field => addField fields field
      | none => pure fields
    readFields vocabulary (before.after element) fields rest

end

def readMessage (vocabulary : Vocabulary) (element : Element) : Check Message := do
  let id ← element.requiredWord "id"
  let name ← element.required "name"
  Check.name name
  let fields ← linkFields (← readFields vocabulary {} [] element.children)
  return {
    id, name, fields
    description := element.attribute? "description"
    declaredBlockLength := ← element.word "blockLength" 0
    semanticType := element.attribute? "semanticType"
    sinceVersion := ← element.word "sinceVersion" 0
    deprecated := ← element.word "deprecated" 0 }

end SimpleBinary.MessageReader
