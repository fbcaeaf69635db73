/-! Signals say what a token marks in a stream: the beginning or the end of an
element, or a leaf. -/
namespace SimpleBinary

inductive Signal where
  | beginMessage | endMessage
  | beginComposite | endComposite
  | beginField | endField
  | beginGroup | endGroup
  | beginEnum | validValue | endEnum
  | beginSet | choice | endSet
  | beginVarData | endVarData
  | encoding
  deriving DecidableEq

namespace Signal

def all : List Signal :=
  [.beginMessage, .endMessage, .beginComposite, .endComposite, .beginField, .endField,
    .beginGroup, .endGroup, .beginEnum, .validValue, .endEnum, .beginSet, .choice, .endSet,
    .beginVarData, .endVarData, .encoding]

def ordinal : Signal → UInt8
  | .beginMessage => 1
  | .endMessage => 2
  | .beginComposite => 3
  | .endComposite => 4
  | .beginField => 5
  | .endField => 6
  | .beginGroup => 7
  | .endGroup => 8
  | .beginEnum => 9
  | .validValue => 10
  | .endEnum => 11
  | .beginSet => 12
  | .choice => 13
  | .endSet => 14
  | .beginVarData => 15
  | .endVarData => 16
  | .encoding => 17

/-- Unknown ordinals mean an encoding. -/
def ofOrdinal (ordinal : UInt8) : Signal :=
  (all.find? fun s => s.ordinal = ordinal).getD .encoding

@[simp] theorem ofOrdinal_ordinal (s : Signal) : ofOrdinal s.ordinal = s := by
  cases s <;> decide

def name : Signal → String
  | .beginMessage => "BEGIN_MESSAGE"
  | .endMessage => "END_MESSAGE"
  | .beginComposite => "BEGIN_COMPOSITE"
  | .endComposite => "END_COMPOSITE"
  | .beginField => "BEGIN_FIELD"
  | .endField => "END_FIELD"
  | .beginGroup => "BEGIN_GROUP"
  | .endGroup => "END_GROUP"
  | .beginEnum => "BEGIN_ENUM"
  | .validValue => "VALID_VALUE"
  | .endEnum => "END_ENUM"
  | .beginSet => "BEGIN_SET"
  | .choice => "CHOICE"
  | .endSet => "END_SET"
  | .beginVarData => "BEGIN_VAR_DATA"
  | .endVarData => "END_VAR_DATA"
  | .encoding => "ENCODING"

def ofName? (text : String) : Option Signal :=
  all.find? fun s => s.name = text

def title : Signal → String
  | .beginMessage => "BeginMessage"
  | .endMessage => "EndMessage"
  | .beginComposite => "BeginComposite"
  | .endComposite => "EndComposite"
  | .beginField => "BeginField"
  | .endField => "EndField"
  | .beginGroup => "BeginGroup"
  | .endGroup => "EndGroup"
  | .beginEnum => "BeginEnum"
  | .validValue => "ValidValue"
  | .endEnum => "EndEnum"
  | .beginSet => "BeginSet"
  | .choice => "Choice"
  | .endSet => "EndSet"
  | .beginVarData => "BeginVarData"
  | .endVarData => "EndVarData"
  | .encoding => "Encoding"

def closing? : Signal → Option Signal
  | .beginMessage => some .endMessage
  | .beginComposite => some .endComposite
  | .beginField => some .endField
  | .beginGroup => some .endGroup
  | .beginEnum => some .endEnum
  | .beginSet => some .endSet
  | .beginVarData => some .endVarData
  | _ => none

def isBegin (s : Signal) : Bool := s.closing?.isSome

def isEnd : Signal → Bool
  | .endMessage | .endComposite | .endField | .endGroup | .endEnum | .endSet | .endVarData => true
  | _ => false

def opensType : Signal → Bool
  | .beginComposite | .beginEnum | .beginSet => true
  | _ => false

end Signal
end SimpleBinary
