import SimpleBinary.Token
import SimpleBinary.Walk.Fault

/-! Values read from a buffer as tokens describe them. -/
namespace SimpleBinary.Walk

def toIndex (offset : Int32) (owner : String) : Except WalkFault Nat :=
  if offset.toInt < 0 then .error (.negativeOffset offset owner) else .ok offset.toInt.toNat

def toLength (length : Int64) (owner : String) : Except WalkFault Nat :=
  if length.toInt < 0 then .error (.invalidLength length owner) else .ok length.toInt.toNat

def readInteger (buffer : List UInt8) (index : Nat) (primitive : Primitive) (order : ByteOrder) :
    Except WalkFault Int64 :=
  if primitive.isFloating then .error (.notInteger primitive)
  else
    match (Value.read? buffer index primitive order).bind Value.asLong? with
    | some n => .ok n
    | none => .error (.shortForPrimitive primitive index buffer.length)

/-- The value that a token describes at an index. A token newer than the
acting version has its null value, a constant its own; neither is read.
Arrays are bytes. -/
def readValue (buffer : List UInt8) (index : Nat) (token : Token) (actingVersion : Int32) :
    Except WalkFault Value :=
  let encoding := token.encoding
  if actingVersion < token.version then
    match encoding.applicableNull with
    | some value => .ok value
    | none => .error (.noNull token.name)
  else if encoding.presence = .constant then
    match encoding.constValue with
    | some value => .ok value
    | none => .error (.noConstant token.name)
  else match encoding.primitive with
    | none => .error (.noPrimitive token.name)
    | some primitive =>
      if 1 < token.arrayLength then
        let size := token.size.toInt.toNat
        if index + size ≤ buffer.length then
          .ok (.bytes ((buffer.drop index).take size)
            (encoding.characterEncoding.getD Value.defaultCharacterEncoding))
        else .error (.shortForArray token.name index)
      else match Value.read? buffer index primitive encoding.byteOrder with
        | some value => .ok value
        | none => .error (.unreadable token.name index)

def isChoiceSet (bits : UInt64) (position : Nat) : Bool :=
  position < 64 && bits.toNat.testBit position

/-- The name of the first valid value in an enum's run that has this value. -/
def enumValueName? (run : List Token) (value : Value) : Option String :=
  (run.find? fun token => token.signal = .validValue &&
    token.encoding.constValue.bind Value.asLong? = value.asLong?).map (·.name)

def position? (token : Token) : Option Nat := do
  let n ← token.encoding.constValue.bind Value.asLong?
  if 0 ≤ n.toInt ∧ n.toInt < 4294967296 then some n.toInt.toNat else none

def choiceNames (run : List Token) (bits : UInt64) : List String :=
  (run.filter fun token => token.signal = .choice &&
    (position? token).any (isChoiceSet bits)).map (·.name)

end SimpleBinary.Walk
