import SimpleBinary.Text.Blank
import SimpleBinary.Xml.Piece

/-! The element tree of a document. Elements are known by their local names,
attributes only where they have no qualifier. -/
namespace SimpleBinary.Xml

structure Element where
  name : String
  attributes : List (String × String)
  text : Option String
  children : List Element

namespace Element

/-- An attribute of blanks only counts as missing. -/
def attribute? (element : Element) (key : String) : Option String :=
  (element.attributes.find? fun pair => pair.1 = key).bind fun pair => Text.trimmed? pair.2

def text? (element : Element) : Option String := element.text.bind Text.trimmed?

mutual

def weight : Element → Nat
  | ⟨_, _, _, children⟩ => 1 + weightAll children

def weightAll : List Element → Nat
  | [] => 0
  | child :: rest => child.weight + weightAll rest

end

end Element

/-- Qualifiers in scope with their namespaces, the innermost first. -/
abbrev Scope := List (String × String)

structure Frame where
  name : Name
  attributes : List (String × String)
  scope : Scope
  text : Option String := none
  isLeading : Bool := true
  /-- In reverse. -/
  children : List Element := []

def Frame.close (frame : Frame) : Element :=
  { name := frame.name.localName
    attributes := frame.attributes
    text := frame.text
    children := frame.children.reverse }

def Frame.addText (frame : Frame) (text : List Char) : Frame :=
  if frame.isLeading then
    { frame with text := some (frame.text.getD "" ++ String.ofList text) }
  else frame

def Frame.addChild (frame : Frame) (child : Element) : Frame :=
  { frame with children := child :: frame.children, isLeading := false }

def xmlNamespace : String := "http://www.w3.org/XML/1998/namespace"

def xmlnsNamespace : String := "http://www.w3.org/2000/xmlns/"

def isDeclaration (name : Name) : Bool := name.qualifier = "xmlns" || name.localName = "xmlns"

/-- The two reserved namespaces cannot be declared, except that `xml` may be
given the one it has. -/
def isReserved (name : Name) (uri : String) : Bool :=
  uri = xmlnsNamespace ||
    decide (uri = xmlNamespace) != decide (name = ⟨"xmlns", "xml"⟩)

/-- The qualifier that an attribute declares, if it declares one; `own` are
those of the same element. -/
def declare (own : Scope) (given : Name × String) : Except Fault Scope :=
  let (name, uri) := given
  if !isDeclaration name then .ok own
  else if isReserved name uri then .error .reservedNamespace
  else if name.qualifier ≠ "xmlns" ∨ name.localName = "xml" then .ok own
  else if own.any fun pair => pair.1 = name.localName then
    .error (.duplicateNamespace name.localName)
  else .ok ((name.localName, uri) :: own)

/-- The namespace of an attribute; without a qualifier it has none. -/
def namespaceOf (scope : Scope) (name : Name) : Except Fault (Option String) :=
  if name.qualifier = "" then .ok none
  else if name.qualifier = "xml" then .ok (some xmlNamespace)
  else match scope.find? fun pair => pair.1 = name.qualifier with
    | some pair => .ok (some pair.2)
    | none => .error (.unknownQualifier name.qualifier)

def distinct (scope : Scope) (seen : List (Option String × String)) :
    List (Name × String) → Except Fault Unit
  | [] => .ok ()
  | (name, _) :: rest => do
    let key := (← namespaceOf scope name, name.localName)
    if seen.contains key then throw (.duplicateAttribute name.localName)
    distinct scope (key :: seen) rest

def openTag (outer : Scope) (tag : Tag) : Except Fault Frame := do
  let own ← tag.attributes.foldlM declare []
  let scope := own ++ outer
  let attributes := tag.attributes.filter fun pair => !isDeclaration pair.1
  distinct scope [] attributes
  let qualifier := tag.name.qualifier
  if qualifier = "xmlns" then throw .reservedNamespace
  if qualifier ≠ "" ∧ !(scope.any fun pair => pair.1 = qualifier) then
    throw (.unknownQualifier qualifier)
  return {
    name := tag.name
    attributes := (attributes.filter fun pair => pair.1.qualifier = "").map
      fun pair => (pair.1.localName, pair.2)
    scope }

/-- The open elements, the innermost first, and the root once it is closed. -/
structure Assembly where
  frames : List Frame := []
  root : Option Element := none

namespace Assembly

def place (frames : List Frame) (element : Element) : Assembly :=
  match frames with
  | [] => { root := some element }
  | frame :: rest => { frames := frame.addChild element :: rest }

def scope (assembly : Assembly) : Scope := (assembly.frames.head?.map Frame.scope).getD []

/-- There is one root element, and outside of it only blanks, comments and
instructions. -/
def add (assembly : Assembly) (piece : Piece) : Except Fault Assembly := do
  match piece, assembly.frames with
  | .aside, [] => return assembly
  | .aside, frame :: rest =>
    return { assembly with frames := { frame with isLeading := false } :: rest }
  | .text chars, [] =>
    if chars.all isBlank then return assembly else throw .contentOutside
  | .text chars, frame :: rest =>
    let content := textContent [] false (← glyphs chars)
    return { assembly with frames := frame.addText content :: rest }
  | .cdata _, [] => throw .contentOutside
  | .cdata chars, frame :: rest =>
    let content := textContent [] false (chars.map .literal)
    return { assembly with frames := frame.addText content :: rest }
  | .opening tag, frames =>
    if frames.isEmpty ∧ assembly.root.isSome then throw .contentOutside
    return { assembly with frames := (← openTag assembly.scope tag) :: frames }
  | .single tag, frames =>
    if frames.isEmpty ∧ assembly.root.isSome then throw .contentOutside
    return place frames (← openTag assembly.scope tag).close
  | .closing name, [] => throw (.unmatchedClose name.localName)
  | .closing name, frame :: rest =>
    if name ≠ frame.name then throw (.unmatchedClose name.localName)
    return place rest frame.close

end Assembly

def Element.ofChars (document : List Char) : Except Fault Element := do
  let assembly ← (← pieces document).foldlM Assembly.add {}
  if !assembly.frames.isEmpty then throw .unclosed
  match assembly.root with
  | some root => return root
  | none => throw .noRoot

def Element.ofDocument (document : String) : Except Fault Element :=
  ofChars document.toList

end SimpleBinary.Xml
