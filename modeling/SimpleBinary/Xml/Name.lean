/-! The character classes of XML, and names with an optional qualifier. -/
namespace SimpleBinary.Xml

def isBlank (c : Char) : Bool := c = ' ' || c = '\t' || c = '\n' || c = '\r'

def isChar (c : Char) : Bool :=
  isBlank c || (0x20 ≤ c.toNat && c.toNat ≠ 0xFFFE && c.toNat ≠ 0xFFFF)

def letterRanges : List (Nat × Nat) :=
  [(0xC0, 0xD6), (0xD8, 0xF6), (0xF8, 0x2FF), (0x370, 0x37D), (0x37F, 0x1FFF),
    (0x200C, 0x200D), (0x2070, 0x218F), (0x2C00, 0x2FEF), (0x3001, 0xD7FF),
    (0xF900, 0xFDCF), (0xFDF0, 0xFFFD), (0x10000, 0xEFFFF)]

def isLetter (c : Char) : Bool :=
  c.isAlpha || c = '_' || letterRanges.any fun range => range.1 ≤ c.toNat && c.toNat ≤ range.2

def isNamePart (c : Char) : Bool :=
  let n := c.toNat
  isLetter c || c.isDigit || c = '-' || c = '.' || n = 0xB7 || (0x300 ≤ n && n ≤ 0x36F) ||
    (0x203F ≤ n && n ≤ 0x2040)

def isNameChars : List Char → Bool
  | [] => false
  | c :: rest => isLetter c && rest.all isNamePart

/-- The qualifier is empty when there is none. -/
structure Name where
  qualifier : String
  localName : String
  deriving DecidableEq

/-- Splits at the only colon; an empty qualifier is the same as none. -/
def Name.ofChars? (chars : List Char) : Option Name :=
  match chars.dropWhile (· ≠ ':') with
  | [] => if isNameChars chars then some ⟨"", String.ofList chars⟩ else none
  | _ :: rest =>
    let qualifier := chars.takeWhile (· ≠ ':')
    if (qualifier = [] ∨ isNameChars qualifier) ∧ isNameChars rest then
      some ⟨String.ofList qualifier, String.ofList rest⟩
    else none

end SimpleBinary.Xml
