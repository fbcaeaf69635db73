import SimpleBinary.Text.Quoted
import SimpleBinary.Token

/-! Why a buffer cannot be walked by a run of tokens. -/
namespace SimpleBinary

inductive WalkFault where
  | negativeOffset (offset : Int32) (owner : String)
  | invalidLength (length : Int64) (owner : String)
  | notInteger (primitive : Primitive)
  | shortForPrimitive (primitive : Primitive) (index length : Nat)
  | shortForArray (token : String) (index : Nat)
  | unreadable (token : String) (index : Nat)
  | noNull (token : String)
  | noConstant (token : String)
  | noPrimitive (token : String)
  | notMessage
  | badCount (count : Int32) (token : String)
  | noType (field : String)
  | noDimension (group : String)
  | noMember (owner member : String)
  | pastEnd (owner : String) (length : Nat)
  | groupOverrun (group : String) (entries blockLength length : Nat)
  | dataOverrun (data : String) (dataLength length : Nat)
  deriving DecidableEq

open Text in
def WalkFault.message : WalkFault → String
  | .negativeOffset offset owner => s!"negative offset {offset.toInt} for {quote owner}"
  | .invalidLength length owner => s!"invalid length {length.toInt} for {quote owner}"
  | .notInteger primitive => s!"{primitive.name} is not an integer type"
  | .shortForPrimitive primitive index length =>
    s!"buffer too short for {primitive.name} at {index} ({length} bytes)"
  | .shortForArray token index => s!"buffer too short for {quote token} at {index}"
  | .unreadable token index => s!"Failed to read {quote token} at {index}: ()"
  | .noNull token => s!"no null value for {quote token}"
  | .noConstant token => s!"no constant value for {quote token}"
  | .noPrimitive token => s!"no primitive type for {quote token}"
  | .notMessage => "token run does not start with BEGIN_MESSAGE"
  | .badCount count token => s!"bad component token count {count.toInt} for {quote token}"
  | .noType field => s!"field {quote field} has no type"
  | .noDimension group => s!"group {quote group} has no dimension"
  | .noMember owner member => s!"{quote owner} has no {quote member}"
  | .pastEnd owner length => s!"{quote owner} runs past the end of a buffer of {length} bytes"
  | .groupOverrun group entries blockLength length =>
    s!"group {quote group} of {entries} entries of {blockLength} bytes overruns buffer of {length}"
  | .dataOverrun data dataLength length =>
    s!"var data {quote data} of {dataLength} bytes overruns buffer of {length}"

end SimpleBinary
