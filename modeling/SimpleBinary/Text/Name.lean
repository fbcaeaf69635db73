/-! Identifiers of schema documents, and references of the form
`Enum.Value` between them. -/
namespace SimpleBinary.Text

def isNameStart (c : Char) : Bool := c.isAlpha || c = '_'

def isNamePart (c : Char) : Bool := c.isAlpha || c.isDigit || c = '_'

def isNameChars : List Char → Bool
  | [] => false
  | c :: rest => isNameStart c && rest.all isNamePart

/-- A letter or underscore, then letters, digits and underscores, all ASCII. -/
def isName (text : String) : Bool := isNameChars text.toList

def dottedName? (text : String) : Option (String × String) :=
  let chars := text.toList
  let first := chars.takeWhile (· ≠ '.')
  match chars.dropWhile (· ≠ '.') with
  | [] => none
  | _ :: second =>
    if isNameChars first && isNameChars second then
      some (String.ofList first, String.ofList second)
    else none

end SimpleBinary.Text
