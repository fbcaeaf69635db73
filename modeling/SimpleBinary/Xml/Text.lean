import SimpleBinary.Text.Integer
import SimpleBinary.Xml.Fault
import SimpleBinary.Xml.Name

/-! The text that characters and references stand for: references resolved,
line ends made one, and blanks in attribute values made spaces. -/
namespace SimpleBinary.Xml

inductive Glyph where
  | literal (c : Char)
  | reference (c : Char)
  deriving DecidableEq

def hexValue? (c : Char) : Option Nat :=
  if c.isDigit then some (c.toNat - '0'.toNat)
  else if 'a' ≤ c ∧ c ≤ 'f' then some (c.toNat - 'a'.toNat + 10)
  else if 'A' ≤ c ∧ c ≤ 'F' then some (c.toNat - 'A'.toNat + 10)
  else none

def hexadecimal? (chars : List Char) : Option Nat :=
  if chars = [] then none
  else chars.foldlM (fun value c => (hexValue? c).map (16 * value + ·)) 0

/-- A number that is no code point stands for the replacement character. -/
def charOfCode (code : Nat) : Char :=
  if code.isValidChar then Char.ofNat code else '\ufffd'

def codePoint (code : Option Nat) : Except Fault Char :=
  match code with
  | none => .error .reference
  | some n =>
    if n < 4294967296 then
      let c := charOfCode n
      if isChar c then .ok c else .error (.forbiddenChar c)
    else .error .reference

def resolve : List Char → Except Fault Char
  | '#' :: 'x' :: digits => codePoint (hexadecimal? digits)
  | '#' :: digits => codePoint (Text.digits? digits)
  | name =>
    match String.ofList name with
    | "quot" => .ok '"'
    | "amp" => .ok '&'
    | "apos" => .ok '\''
    | "lt" => .ok '<'
    | "gt" => .ok '>'
    | other => .error (.unknownReference other)

/-- Glyphs read so far, in reverse, and the characters of an open reference,
in reverse. -/
structure GlyphState where
  glyphs : List Glyph := []
  pending : Option (List Char) := none

def GlyphState.next (state : GlyphState) (c : Char) : Except Fault GlyphState :=
  match state.pending with
  | none =>
    if c = '&' then .ok { state with pending := some [] }
    else .ok { state with glyphs := .literal c :: state.glyphs }
  | some name =>
    if c = ';' then do
      let resolved ← resolve name.reverse
      return { glyphs := .reference resolved :: state.glyphs }
    else .ok { state with pending := some (c :: name) }

def glyphs (chars : List Char) : Except Fault (List Glyph) := do
  let state ← chars.foldlM GlyphState.next {}
  if state.pending.isSome then throw .reference
  return state.glyphs.reverse

/-- Line ends and tabs become spaces, a carriage return with its line feed
one space; references stay as they are. `out` is in reverse. -/
def attributeValue (out : List Char) : List Glyph → List Char
  | [] => out.reverse
  | .reference c :: rest => attributeValue (c :: out) rest
  | .literal c :: rest =>
    if c = '\r' ∧ rest.head? = some (.literal '\n') then attributeValue out rest
    else attributeValue ((if isBlank c then ' ' else c) :: out) rest

/-- A carriage return becomes a line feed and takes up a line feed after it.
`out` is in reverse. -/
def pushLineEnd (out : List Char) (c : Char) (isLast : Bool) : List Char :=
  let ending := if isLast ∧ c = '\r' then '\n' else c
  match out with
  | '\r' :: before => if c = '\n' then '\n' :: before else ending :: '\n' :: before
  | _ => ending :: out

/-- Line ends become line feeds, but a character right behind a reference is
taken as it is. `out` is in reverse. -/
def textContent (out : List Char) (isAsIs : Bool) : List Glyph → List Char
  | [] => out.reverse
  | .reference c :: rest => textContent (c :: out) true rest
  | .literal c :: rest =>
    if isAsIs then textContent (c :: out) false rest
    else textContent (pushLineEnd out c rest.isEmpty) false rest

end SimpleBinary.Xml
