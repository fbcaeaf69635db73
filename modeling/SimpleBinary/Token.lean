import SimpleBinary.Token.Signal
import SimpleBinary.Value

/-! Tokens, the records of a flattened schema. -/
namespace SimpleBinary

structure Encoding where
  presence : Presence := .required
  primitive : Option Primitive := none
  byteOrder : ByteOrder := .little
  minValue : Option Value := none
  maxValue : Option Value := none
  nullValue : Option Value := none
  constValue : Option Value := none
  characterEncoding : Option String := none
  epoch : Option String := none
  timeUnit : Option String := none
  semanticType : Option String := none
  deriving DecidableEq, BEq

namespace Encoding

def impliedPresence (encoding : Encoding) : Presence :=
  if encoding.constValue.isSome then .constant
  else if encoding.nullValue.isSome then .optional
  else .required

def withPresence (encoding : Encoding) (presence : Option Presence) : Encoding :=
  { encoding with presence := presence.getD encoding.impliedPresence }

/-- A limit that is not declared is that of the primitive. -/
def applicableMin (encoding : Encoding) : Option Value :=
  encoding.minValue <|> encoding.primitive.map Primitive.minValue

def applicableMax (encoding : Encoding) : Option Value :=
  encoding.maxValue <|> encoding.primitive.map Primitive.maxValue

def applicableNull (encoding : Encoding) : Option Value :=
  encoding.nullValue <|> encoding.primitive.map Primitive.nullValue

end Encoding

/-- Marks an element without an identity of its own, or without a link. -/
def invalidId : Int32 := 2147483647

structure Token where
  signal : Signal
  name : String
  description : Option String := none
  id : Int32 := invalidId
  refId : Int32 := invalidId
  version : Int32 := 0
  deprecated : Int32 := 0
  offset : Int32 := 0
  size : Int32 := 0
  /-- Tokens of the run that this one opens or closes, one for a leaf. -/
  count : Int32 := 1
  encoding : Encoding := {}
  deriving DecidableEq, BEq

namespace Token

def isConstant (token : Token) : Bool := token.encoding.presence = .constant

def isOptional (token : Token) : Bool := token.encoding.presence = .optional

/-- Elements of an array; without a primitive or a size there is one. -/
def arrayLength (token : Token) : Int :=
  match token.encoding.primitive with
  | some primitive => if 0 < token.size.toInt then token.size.toInt / primitive.size else 1
  | none => 1

end Token
end SimpleBinary
