import SimpleBinary.Xml.Text

/-! A document as a flat list of pieces: tags, texts and what is skipped. -/
namespace SimpleBinary.Xml

structure Tag where
  name : Name
  attributes : List (Name × String)

inductive Piece where
  | opening (tag : Tag)
  | single (tag : Tag)
  | closing (name : Name)
  | text (chars : List Char)
  | cdata (chars : List Char)
  | aside

abbrev Scan := StateT (List Char) (Except Fault)

namespace Scan

def startsWith (text : String) : Scan Bool := return text.toList.isPrefixOf (← get)

def expect (text : String) : Scan Unit := do
  if ← startsWith text then modify (·.drop text.length) else throw (.expected text)

def skipBlanks : Scan Unit := modify (·.dropWhile isBlank)

/-- The characters in front of the first place where `stop` holds of all that
is left, each of them allowed in a document. `taken` is in reverse. -/
def untilStop (stop : List Char → Bool) (taken : List Char) :
    List Char → Except Fault (List Char × List Char)
  | [] => .ok (taken.reverse, [])
  | c :: rest =>
    if stop (c :: rest) then .ok (taken.reverse, c :: rest)
    else if isChar c then untilStop stop (c :: taken) rest
    else .error (.forbiddenChar c)

def upTo (stop : List Char → Bool) : Scan (List Char) := fun chars => untilStop stop [] chars

def upToText (text : String) : Scan (List Char) := upTo fun chars => text.toList.isPrefixOf chars

def name : Scan Name := do
  let isPart (c : Char) : Bool := isNamePart c || c = ':'
  let chars ← get
  set (chars.dropWhile isPart)
  match Name.ofChars? (chars.takeWhile isPart) with
  | some name => return name
  | none => throw .invalidName

/-- A name, an equals sign and a quoted value without a less-than sign, as it
stands in the document. -/
def keyValue : Scan (Name × List Char) := do
  let name ← name
  skipBlanks
  expect "="
  skipBlanks
  let quote ← match ← get with
    | c :: rest =>
      if c = '"' ∨ c = '\'' then do
        set rest
        pure c
      else throw (.expected "a quote")
    | [] => throw .unexpectedEnd
  let value ← upTo fun chars => chars.head? = some quote || chars.head? = some '<'
  expect (String.singleton quote)
  return (name, value)

def resolved : Scan (Name × String) := do
  let (name, value) ← keyValue
  return (name, String.ofList (attributeValue [] (← glyphs value)))

/-- Attributes up to the end of the tag, and whether the tag closes itself.
Every attribute takes characters, so the number of those is fuel enough. -/
def attributes (found : List (Name × String)) : Nat → Scan (List (Name × String) × Bool)
  | 0 => throw .unexpectedEnd
  | fuel + 1 => do
    let isSeparated := ((← get).head?.map isBlank).getD false
    skipBlanks
    if ← startsWith "/" then
      expect "/>"
      return (found.reverse, true)
    else if ← startsWith ">" then
      expect ">"
      return (found.reverse, false)
    else if isSeparated then
      let next ← resolved
      attributes (next :: found) fuel
    else throw (.expected "a blank")

def opening : Scan Piece := do
  expect "<"
  let name ← name
  let (attributes, isSingle) ← attributes [] ((← get).length + 1)
  let tag : Tag := { name, attributes }
  return if isSingle then .single tag else .opening tag

def closing : Scan Piece := do
  expect "</"
  let name ← name
  skipBlanks
  expect ">"
  return .closing name

def occurs (text : List Char) : List Char → Bool
  | [] => text.isEmpty
  | c :: rest => text.isPrefixOf (c :: rest) || occurs text rest

def comment : Scan Piece := do
  expect "<!--"
  let text ← upToText "-->"
  expect "-->"
  if occurs "--".toList text ∨ text.getLast? = some '-' then throw .comment
  return .aside

def instruction : Scan Piece := do
  if ← startsWith "<?xml " then throw .declarationInside
  expect "<?"
  let isPart (c : Char) : Bool := isNamePart c || c = ':'
  let chars ← get
  if !(chars.head?.any fun c => isLetter c || c = ':') then throw .invalidName
  set (chars.dropWhile isPart)
  skipBlanks
  let _ ← upToText "?>"
  expect "?>"
  return .aside

def cdata : Scan Piece := do
  expect "<![CDATA["
  let text ← upToText "]]>"
  expect "]]>"
  return .cdata text

def text : Scan Piece := do
  let chars ← upTo fun chars => chars.head? = some '<'
  if occurs "]]>".toList chars then throw .cdataEndInText
  return .text chars

def piece : Scan Piece := do
  if ← startsWith "<!--" then comment
  else if ← startsWith "<![CDATA[" then cdata
  else if ← startsWith "<!" then throw .documentType
  else if ← startsWith "<?" then instruction
  else if ← startsWith "</" then closing
  else if ← startsWith "<" then opening
  else text

def declarationBlanks : Scan Unit := do
  match ← get with
  | [] => pure ()
  | c :: _ =>
    if isBlank c then skipBlanks
    else if ← startsWith "?>" then pure ()
    else throw (.expected "a blank")

/-- Version, encoding and standing, in that order; only the version has to be
there, and none of them is looked into. -/
def declaration : Scan Unit := do
  if ← startsWith "<?xml " then
    expect "<?xml"
    declarationBlanks
    if !(← startsWith "version") then throw (.expected "version")
    let _ ← keyValue
    declarationBlanks
    if ← startsWith "encoding" then
      let _ ← keyValue
      declarationBlanks
    if ← startsWith "standalone" then
      let _ ← keyValue
    skipBlanks
    expect "?>"

end Scan

/-- Every piece takes characters, so the number of those is fuel enough.
`found` is in reverse. -/
def piecesFrom (found : List Piece) : Nat → List Char → Except Fault (List Piece)
  | _, [] => .ok found.reverse
  | 0, _ :: _ => .error .unexpectedEnd
  | fuel + 1, c :: rest => do
    let (piece, left) ← Scan.piece.run (c :: rest)
    piecesFrom (piece :: found) fuel left

/-- A byte order mark in front is skipped. -/
def pieces (document : List Char) : Except Fault (List Piece) := do
  let chars := match document with
    | '\ufeff' :: rest => rest
    | chars => chars
  let ((), body) ← Scan.declaration.run chars
  piecesFrom [] body.length body

end SimpleBinary.Xml
