import SimpleBinary.Schema
import SimpleBinary.Schema.Attribute

/-! The reading of declared types. A declaration that cannot be used is
reported and left out. -/
namespace SimpleBinary.TypeReader
open Xml (Element)

structure Known where
  /-- Every declaration of the document; of one name, the last. -/
  declared : Table String Element
  types : Table String DataType

def typeInfo (element : Element) (name : String) (presence : Presence) : Check TypeInfo := do
  Check.name name
  let offset ← element.word? "offset"
  return {
    name, presence, offset
    description := element.attribute? "description"
    semanticType := element.attribute? "semanticType"
    sinceVersion := ← element.word "sinceVersion" 0
    deprecated := ← element.word "deprecated" 0 }

def report (context : String) : Except LiteralError Value → Check (Option Value)
  | .ok value => pure (some value)
  | .error error => do
    Check.error (.literal error context)
    return none

def literal (text : String) (primitive : Primitive) (context : String) : Check (Option Value) :=
  report context (Value.ofLiteral text primitive)

def literalAttribute (element : Element) (key : String) (primitive : Primitive)
    (context : String) : Check (Option Value) :=
  match element.attribute? key with
  | some text => literal text primitive context
  | none => pure none

/-- The text of the valid value that a reference `Enum.Value` names. -/
def referredText (known : Known) (reference : String) : Check (Option String) := do
  match Text.dottedName? reference with
  | none =>
    Check.error (.valueRefFormat reference)
    return none
  | some (enumName, valueName) =>
    match (known.declared.get? enumName).filter (·.name = "enum") with
    | none =>
      Check.error (.valueRefEnum enumName)
      return none
    | some element =>
      let value := (element.childrenNamed "validValue").find? fun child =>
        child.attribute? "name" = some valueName
      match value.bind (·.text?) with
      | none =>
        Check.error (.valueRefValue valueName)
        return none
      | some text => return some text

/-- The value of a constant: what its reference names, or else its text. -/
def constant (known : Known) (element : Element) (name : String) (type : EncodedType) :
    Check (Option Value) := do
  let text ← match type.valueRef with
    | some reference => referredText known reference
    | none => pure element.text?
  match text with
  | none =>
    Check.error (.constantWithoutValue name)
    return none
  | some text =>
    if type.primitive = .char ∧ 1 < type.length.toInt then
      let characterEncoding := type.characterEncoding.getD Value.defaultCharacterEncoding
      report name (Value.ofArrayLiteral text type.length.toInt.toNat characterEncoding)
    else literal text type.primitive name

def readEncoded (known : Known) (element : Element) : Check (Option DataType) := do
  let name ← element.required "name"
  let presence := (← element.presence?).getD .required
  let primitiveName ← element.required "primitiveType"
  match Primitive.ofName? primitiveName with
  | none =>
    Check.error (.unknownPrimitive primitiveName name)
    return none
  | some primitive =>
    let length ← element.word "length" 1
    if length.toInt < 0 then
      Check.error (.negativeLength name length)
      return none
    else if !Check.fits (primitive.size * length.toInt) then
      Check.error (.lengthTooLarge length name)
      return none
    else
      let isVariable ← element.flag "variableLength" false
      let characterEncoding := element.attribute? "characterEncoding" <|>
        (if primitive = .char then some Value.defaultCharacterEncoding else none)
      let plain : EncodedType :=
        { primitive, length, isVariable, characterEncoding
          valueRef := element.attribute? "valueRef" }
      let constValue ←
        if presence = .constant then constant known element name plain else pure none
      let minValue ← literalAttribute element "minValue" primitive name
      let maxValue ← literalAttribute element "maxValue" primitive name
      let nullValue ← literalAttribute element "nullValue" primitive name
      if nullValue.isSome ∧ presence ≠ .optional then Check.warning (.nullNotOptional name)
      let info ← typeInfo element name presence
      return some (.encoded info { plain with constValue, minValue, maxValue, nullValue })

def encodingOf? (known : Known) (name : String) : Option Primitive :=
  Primitive.ofName? name <|> do
    let element ← known.declared.get? name
    if element.name = "type" then
      (element.attribute? "primitiveType").bind Primitive.ofName?
    else none

def namedValue (element : Element) (name : String) (value : Value) : Check NamedValue := do
  return {
    name, value
    description := element.attribute? "description"
    sinceVersion := ← element.word "sinceVersion" 0
    deprecated := ← element.word "deprecated" 0 }

/-- No two valid values share a name or a value; the later one is left out. -/
def addValidValue (encoding : Primitive) (values : List NamedValue) (element : Element) :
    Check (List NamedValue) := do
  let name ← element.required "name"
  Check.name name
  match ← literal (element.text?.getD "") encoding name with
  | none => return values
  | some value =>
    if values.any (·.name = name) then
      Check.error (.duplicateValueName name)
      return values
    else if values.any (·.value == value) then
      Check.error (.duplicateValue value)
      return values
    else return values ++ [← namedValue element name value]

def readEnum (known : Known) (element : Element) : Check (Option DataType) := do
  let name ← element.required "name"
  let presence := (← element.presence?).getD .required
  let encodingName ← element.required "encodingType"
  match (encodingOf? known encodingName).filter fun p => p = .char || p = .uint8 with
  | none =>
    Check.error (.enumEncoding encodingName name)
    return none
  | some encoding =>
    let nullValue ← match element.attribute? "nullValue" with
      | none => pure none
      | some text =>
        if presence ≠ .optional then Check.error (.nullNotOptional name)
        literal text encoding name
    let values ← (element.childrenNamed "validValue").foldlM (addValidValue encoding) []
    let info ← typeInfo element name presence
    return some (.enum info { encoding, nullValue, values })

/-- A choice is a bit position within the encoding. No two share a name or a
position; the later one is left out. -/
def addChoice (encoding : Primitive) (choices : List NamedValue) (element : Element) :
    Check (List NamedValue) := do
  let name ← element.required "name"
  Check.name name
  match ← literal (element.text?.getD "") encoding name with
  | none => return choices
  | some value =>
    let position := (value.asLong?.map Int64.toInt).getD (-1)
    if position < 0 ∨ 8 * encoding.size ≤ position then
      Check.error (.choiceOutOfBounds name position)
      return choices
    else if choices.any (·.name = name) then
      Check.warning (.duplicateChoiceName name)
      return choices
    else if choices.any (·.value == value) then
      Check.warning (.duplicateChoice position)
      return choices
    else return choices ++ [← namedValue element name value]

def readSet (known : Known) (element : Element) : Check (Option DataType) := do
  let name ← element.required "name"
  let presence := (← element.presence?).getD .required
  let encodingName ← element.required "encodingType"
  match (encodingOf? known encodingName).filter Primitive.isUnsigned with
  | none =>
    Check.error (.setEncoding encodingName name)
    return none
  | some encoding =>
    let choices ← (element.childrenNamed "choice").foldlM (addChoice encoding) []
    let info ← typeInfo element name presence
    return some (.set info { encoding, choices })

/-- Reading keeps the names of the composites that are open, so that none of
them is referred to from inside. -/
abbrev Reading := StateT (List String) Check

/-- Declared offsets leave room for the members before them. Nothing is known
of the places after a member of variable length. -/
def memberOffsets (composite : String) (offset : Int) : List DataType → Check Unit
  | [] => pure ()
  | member :: rest => do
    let start ← match member.info.offset with
      | none => pure offset
      | some declared => do
        if declared.toInt < offset then Check.error (.memberOffset member.name composite)
        pure declared.toInt
    if member.isVariable then return
    let next := start + member.encodedLength
    if Check.fits next then memberOffsets composite next rest else throw .tooLarge

/-- A copy of a named type under a new name; the type may be declared later
in the document. -/
def readRef (known : Known) (read : Element → Reading (Option DataType)) (element : Element) :
    Reading (Option DataType) := do
  let name ← element.required "name"
  let typeName ← element.required "type"
  if (← get).contains typeName then
    Check.error (.recursiveReference name typeName)
    return none
  else
    let referred ← match known.types.get? typeName with
      | some type => pure (some type)
      | none =>
        match known.declared.get? typeName with
        | some declaration => read declaration
        | none => pure none
    match referred with
    | none =>
      Check.error (.referenceNotFound typeName)
      return none
    | some type =>
      Check.name name
      let offset ← element.word? "offset"
      let sinceVersion ← element.word "sinceVersion" type.info.sinceVersion
      return some (type.withInfo { type.info with name, offset, sinceVersion })

def addMember (known : Known) (read : Element → Reading (Option DataType)) (composite : String)
    (members : List DataType) (element : Element) : Reading (List DataType) := do
  let member ← if element.name = "ref" then readRef known read element else read element
  match member with
  | none => return members
  | some member =>
    if members.any (·.name = member.name) then
      Check.error (.duplicateMember composite member.name)
      return members
    else return members ++ [member]

def readComposite (known : Known) (read : Element → Reading (Option DataType))
    (element : Element) : Reading (Option DataType) := do
  let name ← element.required "name"
  let presence := (← element.presence?).getD .required
  modify (name :: ·)
  let members ← element.children.foldlM (addMember known read name) []
  modify (·.filter (· ≠ name))
  memberOffsets name 0 members
  let info ← typeInfo element name presence
  return some (.composite info members)

def readType (known : Known) : Nat → Element → Reading (Option DataType)
  | 0, _ => throw .endlessReferences
  | fuel + 1, element =>
    match element.name with
    | "type" => readEncoded known element
    | "composite" => readComposite known (readType known fuel) element
    | "enum" => readEnum known element
    | "set" => readSet known element
    | _ => pure none

def addType (types : Table String DataType) (type : DataType) :
    Check (Table String DataType) := do
  if types.contains type.name then Check.warning (.duplicateType type.name)
  return types.insert type.name type

/-- How deep references can go: what is read next depends only on the element
and on which names are open, so a longer way comes back to where it was. -/
def depth (root : Element) : Nat := root.weight <<< root.weight

def readAll (root : Element) : Check (Table String DataType) :=
  let declarations := (root.childrenNamed "types").flatMap (·.children)
  let declared := declarations.foldl
    (fun (table : Table String Element) element =>
      match element.attribute? "name" with
      | some name => table.insert name element
      | none => table) .empty
  declarations.foldlM (fun types element => do
    match ← (readType { declared, types } (depth root) element).run' [] with
    | some type => addType types type
    | none => return types) Schema.builtInTypes

end SimpleBinary.TypeReader
