import SimpleBinary.Schema.Check

/-! The layout of a block: one pass from left to right gives every field its
offset and every group its block length. A pass that fails has placed the
fields before the failure, so the fields are returned with every outcome. -/
namespace SimpleBinary

/-- Where the next field goes. Once a group or a field of variable length has
been passed, nothing has a fixed place any more. -/
structure Layout where
  offset : Int := 0
  isVariable : Bool := false

/-- A declared offset wins; without one, the first group or variable field
moves to the block length declared around it. -/
def Layout.moved (layout : Layout) (hint : Int) (field : Field) : Int :=
  if layout.offset = variableLength then layout.offset
  else if field.info.offset ≠ 0 then field.info.offset.toInt
  else if (field.isGroup || field.isVariable) && hint ≠ 0 then hint
  else layout.offset

def Layout.after (layout : Layout) (size : Int) : Except Error Layout :=
  if size = variableLength then .ok { layout with isVariable := true }
  else if layout.isVariable then .ok layout
  else if Check.fits (layout.offset + size) then .ok { layout with offset := layout.offset + size }
  else .error .tooLarge

namespace Field

/-- A plain field or data element at its place; constants take no room. -/
def placeValue (layout : Layout) (field : Field) (type : DataType) :
    Field × Except Error Layout :=
  if field.isConstant then (field, .ok layout)
  else
    let size := type.encodedLength
    let sized := field.mapInfo fun info =>
      if size = variableLength then info else { info with computedBlockLength := size }
    (sized, layout.after size)

def arrive (hint : Int) (layout : Layout) (field : Field) :
    StateM Log (Except Error (Field × Layout)) := do
  let declared := field.info.offset
  let checked ←
    if declared ≠ 0 ∧ declared.toInt < layout.offset then
      (Check.error (.insufficientOffset field.name)).run
    else pure (.ok ())
  match checked with
  | .error error => return .error error
  | .ok () =>
    let offset := layout.moved hint field
    let computed := if layout.isVariable then variableLength else offset
    let arrived := field.mapInfo fun info => { info with computedOffset := computed }
    return .ok (arrived, { layout with offset })

mutual

/-- The fields of a group are laid out on their own, from offset zero. -/
def place (hint : Int) (layout : Layout) : Field → StateM Log (Field × Except Error Layout)
  | .plain info type => do
    match ← arrive hint layout (.plain info type) with
    | .error error => return (.plain info type, .error error)
    | .ok (field, layout) => return field.placeValue layout type
  | .data info type => do
    match ← arrive hint layout (.data info type) with
    | .error error => return (.data info type, .error error)
    | .ok (field, layout) => return field.placeValue layout type
  | .group info dimension blockLength fields => do
    match ← arrive hint layout (.group info dimension blockLength fields) with
    | .error error => return (.group info dimension blockLength fields, .error error)
    | .ok (field, layout) =>
      let (inner, outcome) ← placeAll 0 {} fields
      let filled := Field.group field.info dimension blockLength inner
      match outcome with
      | .error error => return (filled, .error error)
      | .ok last =>
        match ← (Check.blockLength info.name blockLength.toInt last.offset).run with
        | .error error => return (filled, .error error)
        | .ok () =>
          let length := max blockLength.toInt last.offset
          let sized := filled.mapInfo fun info => { info with computedBlockLength := length }
          return (sized, .ok { layout with isVariable := true })

def placeAll (hint : Int) (layout : Layout) :
    List Field → StateM Log (List Field × Except Error Layout)
  | [] => return ([], .ok layout)
  | field :: rest => do
    let (field, outcome) ← place hint layout field
    match outcome with
    | .error error => return (field :: rest, .error error)
    | .ok layout =>
      let (rest, outcome) ← placeAll hint layout rest
      return (field :: rest, outcome)

end

/-- The length of the fixed part in front of the first group or field of
variable length, given the length so far. -/
def fixedLength (length : Int) : List Field → Int
  | [] => length
  | field :: rest =>
    match field.type? with
    | none => length
    | some type =>
      if type.encodedLength = variableLength then length
      else if field.isConstant then fixedLength field.info.computedOffset rest
      else fixedLength (field.info.computedOffset + type.encodedLength) rest

end Field

namespace Message

def arrange (message : Message) : StateM Log (Message × Except Error Unit) := do
  let (fields, outcome) ← Field.placeAll message.declaredBlockLength.toInt {} message.fields
  let placed := { message with fields }
  match outcome with
  | .error error => return (placed, .error error)
  | .ok _ =>
    let computed := Field.fixedLength 0 fields
    let outcome ← (Check.blockLength message.name message.declaredBlockLength.toInt computed).run
    return ({ placed with computedBlockLength := computed }, outcome)

end Message
end SimpleBinary
