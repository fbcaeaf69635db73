import SimpleBinary.Walk.Message

/-! Listeners that keep a record of what they hear. -/
namespace SimpleBinary.Walk

inductive Event where
  | beginMessage (name : String) (id : Int32)
  | endMessage (name : String) (signal : Signal)
  | encoding (field : String) (index : Nat) (type : String) (value : Value)
  | enum (field : String) (index length : Nat) (value : Value) (name : Option String)
  | enumConstant (field : String) (index : Nat) (text : Option String)
  | set (field : String) (index length : Nat) (bits : UInt64) (names : List String)
  | beginComposite (field type : String) (length : Nat)
  | endComposite (field type : String) (length : Nat)
  | groupHeader (name : String) (entries : Nat)
  | beginGroup (name : String) (entry entries : Nat)
  | endGroup (name : String) (entry entries : Nat)
  | varData (field : String) (index : Nat) (type : String) (content : List UInt8)
  deriving DecidableEq

variable (buffer : List UInt8) (actingVersion : Int32)

def firstName (run : List Token) : String := (run.head?.map (·.name)).getD ""

/-- The bits of a set; without a primitive they are a byte. -/
def readBits (index : Nat) (run : List Token) : Except WalkFault UInt64 :=
  let encoding := (run.head?.map (·.encoding)).getD {}
  (readInteger buffer index (encoding.primitive.getD .uint8) encoding.byteOrder).map
    Int64.toUInt64

def enumEvent (field : Token) (index : Nat) (run : List Token) : Except WalkFault Event :=
  if field.isConstant then
    .ok (.enumConstant field.name index (field.encoding.constValue.map Value.display))
  else match run with
    | [] => .error (.noType field.name)
    | token :: _ => do
      let value ← readValue buffer index token actingVersion
      return .enum field.name index run.length value (enumValueName? run value)

def event : Notice → Except WalkFault Event
  | .beginMessage token => .ok (.beginMessage token.name token.id)
  | .endMessage token => .ok (.endMessage token.name token.signal)
  | .encoding field index type => do
    return .encoding field.name index type.name (← readValue buffer index type actingVersion)
  | .enum field index run => enumEvent buffer actingVersion field index run
  | .set field index run => do
    let bits ← readBits buffer index run
    return .set field.name index run.length bits (choiceNames run bits)
  | .beginComposite field run => .ok (.beginComposite field.name (firstName run) run.length)
  | .endComposite field run => .ok (.endComposite field.name (firstName run) run.length)
  | .groupHeader group entries => .ok (.groupHeader group.name entries)
  | .beginGroup group entry entries => .ok (.beginGroup group.name entry entries)
  | .endGroup group entry entries => .ok (.endGroup group.name entry entries)
  | .varData field index length type =>
    .ok (.varData field.name index type.name ((buffer.drop index).take length))

def tracing : Listener (List Event) := fun notice => do
  let heard ← certain (event buffer actingVersion notice)
  modify (· ++ [heard])

def showing : Listener (List (String × String))
  | .encoding field index type => do
    let value ← certain (readValue buffer index type actingVersion)
    modify (· ++ [(field.name, value.display)])
  | _ => pure ()

end SimpleBinary.Walk
