import SimpleBinary.Schema.Check
import SimpleBinary.Xml.Element

/-! The attributes of schema elements. One that is missing takes its default,
one that is malformed ends the reading at once, whatever the policy. -/
namespace SimpleBinary.Xml.Element

def required (element : Element) (key : String) : Check String :=
  match element.attribute? key with
  | some value => pure value
  | none => throw (.schema (.missingAttribute element.name key))

def word (element : Element) (key : String) (default : Int32) : Check Int32 :=
  match element.attribute? key with
  | none => pure default
  | some value =>
    match Text.word? value with
    | some n => pure n
    | none => throw (.schema (.notInteger element.name key value))

def word? (element : Element) (key : String) : Check (Option Int32) :=
  match element.attribute? key with
  | none => pure none
  | some _ => some <$> element.word key 0

def requiredWord (element : Element) (key : String) : Check Int32 := do
  let _ ← element.required key
  element.word key 0

def flag (element : Element) (key : String) (default : Bool) : Check Bool :=
  match element.attribute? key with
  | none => pure default
  | some "true" => pure true
  | some "false" => pure false
  | some other => throw (.schema (.notBoolean element.name key other))

def presence? (element : Element) : Check (Option Presence) :=
  match element.attribute? "presence" with
  | none => pure none
  | some value =>
    match Presence.ofName? value with
    | some presence => pure (some presence)
    | none => throw (.schema (.unknownPresence value))

def childrenNamed (element : Element) (name : String) : List Element :=
  element.children.filter fun child => child.name = name

end SimpleBinary.Xml.Element
